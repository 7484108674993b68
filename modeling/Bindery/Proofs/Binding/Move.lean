import Mathlib.Logic.Relation
import Bindery.Proofs.Binding.Session
import Bindery.Proofs.Binding.Step
import Bindery.Proofs.Header

/-! What calls do to an interface and to the header in use, as chains of moves of a few kinds. -/

namespace Bindery

variable {α β : Type}

def Context.changeClass (c : Context) (name : String) (f : Class → Class) : Context :=
  { c with classes := c.classes.map fun cls => if cls.name == name then f cls else cls }

def Context.getClass? (c : Context) (name : String) : Option Class :=
  c.classes.find? (·.name == name)

/-- A bound function gets its place, which goes with how it is exposed. -/
inductive Placed (f : Func) : FuncKind → Context → Context → Prop where
  | generic {c : Context} {name rename : String} {g g' : Generic} {markers : GenericMarkers}
      (found : c.generics.get? name = some g) (free : g.insertMethod rename f = .ok g') :
      Placed f (.generic markers) c
        { c with generics := c.generics.modify name fun _ => g' }
  | constructor {c : Context} {name : String} {cls : Class}
      (found : c.getClass? name = some cls) (free : cls.constructor.isSome = false) :
      Placed f .constructor c (c.changeClass name fun k => { k with constructor := some f })
  | destructor {c : Context} {name : String} {cls : Class}
      (found : c.getClass? name = some cls) (free : cls.destructor.isSome = false) :
      Placed f .destructor c (c.changeClass name fun k => { k with destructor := some f })
  | method {c : Context} {name rename : String} {cls : Class}
      (found : c.getClass? name = some cls) (free : cls.methods.any (·.1 == rename) = false) :
      Placed f .method c
        (c.changeClass name fun k => { k with methods := k.methods ++ [(rename, f)] })
  | static {c : Context} {name rename : String} {cls : Class}
      (found : c.getClass? name = some cls) (free : cls.funcs.any (·.1 == rename) = false) :
      Placed f .static c (c.changeClass name fun k => { k with funcs := k.funcs ++ [(rename, f)] })

/-- Declarations of one kind are taken from a header in turn. -/
inductive Taken (kind : DeclKind) : Header → List Decl → Header → Prop where
  | nil {h : Header} : Taken kind h [] h
  | cons {h h' h'' : Header} {name : String} {d : Decl} {ds : List Decl}
      (first : h.pop kind name = .ok (d, h')) (rest : Taken kind h' ds h'') :
      Taken kind h (d :: ds) h''

/-- One move of a call. What is bound is made from declarations that the same move takes from the
header. In the last two the context keeps what was recorded while a function or a struct was bound,
but not the function or the struct. -/
inductive Move : Bool → Workspace → Workspace → Prop where
  | claim {ok : Bool} {w : Workspace} {h : Header} (later : w.header.Later h) :
      Move ok w { w with header := h }
  | addInclude {ok : Bool} {w : Workspace} (header : String) :
      Move ok w { w with context := w.context.addInclude header }
  | dress {ok : Bool} {w : Workspace} {name : String} {f : Generic → Generic}
      (same : ∀ g, f g =
        { g with pythonMethods := (f g).pythonMethods, extensions := (f g).extensions }) :
      Move ok w
        { w with context := { w.context with generics := w.context.generics.modify name f } }
  | bindFunc {ok : Bool} {w : Workspace} {name : String} {d : Decl} {h : Header} {kind : FuncKind}
      {options : FuncOptions} {f : Func} {r : Registry} {c : Context}
      (taken : w.header.pop .function name = .ok (d, h))
      (bound : (Func.bind h.source d kind options).run.run w.context.generics = (.ok f, r))
      (placed : Placed f kind { w.context with generics := r } c) : Move ok w ⟨c, h⟩
  | bindClass {ok : Bool} {w : Workspace} {tag : String} {record : Decl} {h : Header}
      {spec : ClassSpec} {cls : Class} {stale : List String} {r : Registry}
      (taken : w.header.pop .struct tag = .ok (record, h))
      (fresh : w.context.classes.any (·.name == spec.typedefName) = false)
      (bound : (Class.ofRecord h.source spec w.context.options.stale record).run.run
        w.context.generics = (.ok (cls, stale), r)) :
      Move ok w ⟨{ w.context with
        generics := r
        classes := w.context.classes ++ [cls]
        warnings := w.context.warnings ++ stale }, h⟩
  | bindDirector {ok : Bool} {w : Workspace} {cls : Class} {d : Director}
      (bound : cls ∈ w.context.classes) (sorted : Director.ofClass cls = .ok d) :
      Move ok w { w with context := { w.context with directors := w.context.directors ++ [d] } }
  | bindEnum {ok : Bool} {w : Workspace} {typedefName tag : String} {t e : Decl} {h h' : Header}
      {constants : List (String × String)}
      (named : w.header.pop .typedef typedefName = .ok (t, h))
      (taken : h.pop .enum tag = .ok (e, h'))
      (listed : BindM.enumConstants typedefName e.children = .ok constants) :
      Move ok w ⟨{ w.context with enums := w.context.enums ++ [⟨t.name, constants⟩] }, h'⟩
  | bindDefines {ok : Bool} {w : Workspace} {ds : List Decl} {h : Header}
      (taken : Taken .define w.header ds h) :
      Move ok w ⟨{ w.context with
        defines := w.context.defines ++ [ds.map fun d => (d.name, d.value.getD "")] }, h⟩
  | loseFunc {w : Workspace} {name : String} {d : Decl} {h : Header} {kind : FuncKind}
      {options : FuncOptions} {result : Except BindError Func} {r : Registry}
      (taken : w.header.pop .function name = .ok (d, h))
      (bound : (Func.bind h.source d kind options).run.run w.context.generics = (result, r)) :
      Move false w ⟨{ w.context with generics := r }, h⟩
  | loseClass {w : Workspace} {tag : String} {record : Decl} {h : Header} {spec : ClassSpec}
      {policy : StalePolicy} {result : Except BindError (Class × List String)} {r : Registry}
      (taken : w.header.pop .struct tag = .ok (record, h))
      (bound : (Class.ofRecord h.source spec policy record).run.run w.context.generics =
        (result, r)) :
      Move false w ⟨{ w.context with generics := r }, h⟩

theorem Move.weaken {ok : Bool} {w w' : Workspace} (h : Move true w w') : Move ok w w' := by
  cases h with
  | claim hl => exact .claim hl
  | addInclude header => exact .addInclude header
  | dress h => exact .dress h
  | bindFunc ht hb hp => exact .bindFunc ht hb hp
  | bindClass ht hf hb => exact .bindClass ht hf hb
  | bindDirector hc hd => exact .bindDirector hc hd
  | bindEnum hn ht hl => exact .bindEnum hn ht hl
  | bindDefines ht => exact .bindDefines ht

theorem Taken.later {kind : DeclKind} {h h' : Header} {ds : List Decl} (ht : Taken kind h ds h') :
    h.Later h' := by
  induction ht with
  | nil => exact .refl _
  | cons first _ ih => exact (Header.pop_ok first).1.trans ih

theorem Move.later {ok : Bool} {w w' : Workspace} (h : Move ok w w') :
    w.header.Later w'.header := by
  cases h with
  | claim hl => exact hl
  | addInclude header => exact .refl _
  | dress _ => exact .refl _
  | bindFunc ht _ _ => exact (Header.pop_ok ht).1
  | bindClass ht _ _ => exact (Header.pop_ok ht).1
  | bindDirector _ _ => exact .refl _
  | bindEnum hn ht _ => exact (Header.pop_ok hn).1.trans (Header.pop_ok ht).1
  | bindDefines ht => exact ht.later
  | loseFunc ht _ => exact (Header.pop_ok ht).1
  | loseClass ht _ => exact (Header.pop_ok ht).1

abbrev Course (ok : Bool) : Workspace → Workspace → Prop :=
  Relation.ReflTransGen (Move ok)

theorem Course.weaken {ok : Bool} {w w' : Workspace} (h : Course true w w') : Course ok w w' :=
  Relation.ReflTransGen.mono (fun _ _ hm => Move.weaken hm) _ _ h

/-- What a call does: it makes a chain of moves, or takes a typedef of a struct and registers a
generic under its name. -/
inductive Turn (ok : Bool) (w : Workspace) : BindCall → Workspace → Prop where
  | moves {call : BindCall} {w' : Workspace} (course : Course ok w w') : Turn ok w call w'
  | registers {typedefName tag : String} {pointer : PointerPolicy} {dependencies : List String}
      {d : Decl} {h : Header} {r : Registry}
      (taken : w.header.pop .typedef typedefName = .ok (d, h))
      (behind : d.type.bind RawType.recordName = some tag)
      (registered : w.context.generics.register (.bare typedefName tag pointer dependencies) =
        .ok r) :
      Turn ok w (.addGeneric typedefName pointer dependencies)
        ⟨{ w.context with generics := r }, h⟩

/-- Taking a declaration leaves a later header, or fails and leaves all as it is. -/
theorem pop_ends (kind : DeclKind) (name : String) (w : Workspace) :
    Ends (BindM.pop kind name) w fun result w' =>
      match result with
      | .ok d => ∃ h, w.header.pop kind name = .ok (d, h) ∧ w' = { w with header := h }
      | .error _ => w' = w := by
  have hpop : (BindM.pop kind name).run.run w =
      ((BindM.ofExcept (w.header.pop kind name)) >>= fun taken =>
        BindM.setHeader taken.2 >>= fun _ => pure taken.1).run.run w := rfl
  unfold Ends
  rw [hpop]
  cases hp : w.header.pop kind name with
  | error e => rfl
  | ok taken => exact ⟨taken.2, rfl, rfl⟩

theorem Turn.later {ok : Bool} {w w' : Workspace} {call : BindCall} (h : Turn ok w call w') :
    w.header.Later w'.header := by
  cases h with
  | registers ht _ _ => exact (Header.pop_ok ht).1
  | moves hc =>
    induction hc with
    | refl => exact .refl _
    | tail _ hm ih => exact ih.trans hm.later

/-- The step, begun with `w` in a course that began with `w₀`, goes on with the course, without
losses if it succeeds; its result and the workspace that it leaves then satisfy `P`. -/
def Continues (w₀ w : Workspace) (x : BindM α) (P : α → Workspace → Prop) : Prop :=
  Ends x w fun result w' => Course result.isOk w₀ w' ∧ ∀ a, result = .ok a → P a w'

namespace Continues

variable {w₀ w : Workspace}

theorem imp {x : BindM α} {P Q : α → Workspace → Prop} (h : Continues w₀ w x P)
    (hi : ∀ a w', P a w' → Q a w') : Continues w₀ w x Q :=
  Ends.imp h fun _ w' ⟨he, hp⟩ => ⟨he, fun a ha => hi a w' (hp a ha)⟩

theorem bind {x : BindM α} {f : α → BindM β} {P : α → Workspace → Prop}
    {Q : β → Workspace → Prop} (hx : Continues w₀ w x P)
    (hf : ∀ a w', P a w' → Continues w' w' (f a) Q) : Continues w₀ w (x >>= f) Q := by
  refine Ends.bind hx (fun a w' ⟨he, hp⟩ => ?_) fun e w' ⟨he, _⟩ => ⟨he, fun a ha => by cases ha⟩
  refine Ends.imp (hf a w' (hp a rfl)) fun result w'' ⟨he', hq⟩ => ⟨?_, hq⟩
  exact he.weaken.trans he'

theorem pure {a : α} {P : α → Workspace → Prop} (hc : Course true w₀ w) (h : P a w) :
    Continues w₀ w (pure a) P := by
  refine ⟨hc, fun a' ha => ?_⟩
  cases ha
  exact h

theorem throw (e : BindError) (P : α → Workspace → Prop) (hc : Course true w₀ w) :
    Continues w₀ w (throw e) P :=
  ⟨hc.weaken, fun a ha => by cases ha⟩

theorem getContext_bind {f : Context → BindM α} {P : α → Workspace → Prop}
    (h : Continues w₀ w (f w.context) P) : Continues w₀ w (BindM.getContext >>= f) P := h

theorem getHeader_bind {f : Header → BindM α} {P : α → Workspace → Prop}
    (h : Continues w₀ w (f w.header) P) : Continues w₀ w (BindM.getHeader >>= f) P := h

theorem ofExcept_bind {x : Except BindError α} {f : α → BindM β} {P : β → Workspace → Prop}
    (hc : Course true w₀ w) (hf : ∀ a, x = .ok a → Continues w₀ w (f a) P) :
    Continues w₀ w (BindM.ofExcept x >>= f) P := by
  cases x with
  | error e => exact .throw e P hc
  | ok a => exact hf a rfl

/-- What changes the header makes it a later one. -/
theorem setHeader {h : Header} (later : w.header.Later h) :
    Continues w w (BindM.setHeader h) fun _ w' => w' = { w with header := h } :=
  ⟨.single (.claim later), fun _ _ => rfl⟩

theorem modifyContext {f : Context → Context}
    (h : Move true w₀ { w with context := f w.context }) :
    Continues w₀ w (BindM.modifyContext f) fun _ w' => w' = { w with context := f w.context } :=
  ⟨.single h, fun _ _ => rfl⟩

/-- What follows the taking of a declaration may be part of one move with it. -/
theorem pop_bind {kind : DeclKind} {name : String} {f : Decl → BindM α}
    {P : α → Workspace → Prop} (hc : Course true w₀ w)
    (hf : ∀ d h, w.header.pop kind name = .ok (d, h) →
      Continues w₀ { w with header := h } (f d) P) :
    Continues w₀ w (BindM.pop kind name >>= f) P := by
  refine (pop_ends kind name w).bind ?_ ?_
  · rintro d _ ⟨h, hp, rfl⟩
    exact hf d h hp
  · rintro e _ rfl
    exact ⟨hc.weaken, nofun⟩

theorem recordBehind_bind {d : Decl} {name : String} {f : String → BindM α}
    {P : α → Workspace → Prop} (hc : Course true w₀ w)
    (hf : ∀ tag, d.type.bind RawType.recordName = some tag → Continues w₀ w (f tag) P) :
    Continues w₀ w (BindM.recordBehind d name >>= f) P := by
  unfold BindM.recordBehind
  cases ht : d.type.bind RawType.recordName with
  | some tag => exact hf tag ht
  | none => exact .throw _ P hc

theorem getClass_bind {name : String} {f : Class → BindM α} {P : α → Workspace → Prop}
    (hc : Course true w₀ w) (hf : ∀ k, w.context.getClass? name = some k → Continues w₀ w (f k) P) :
    Continues w₀ w (BindM.getClass name >>= f) P := by
  unfold BindM.getClass
  rw [bind_assoc]
  apply getContext_bind
  cases hk : w.context.getClass? name with
  | some k =>
    simp only [Context.getClass?] at hk
    simp only [hk]
    exact hf k hk
  | none =>
    simp only [Context.getClass?] at hk
    simp only [hk]
    exact .throw _ P hc

/-- The struct of a class is taken, behind a typedef that may be taken before it. -/
theorem popStruct_bind {spec : ClassSpec} {f : Decl → BindM α} {P : α → Workspace → Prop}
    (hf : ∀ w₁, w₁.context = w.context → ∀ tag d h, w₁.header.pop .struct tag = .ok (d, h) →
      Continues w₁ { w₁ with header := h } (f d) P) :
    Continues w w (BindM.popStruct spec >>= f) P := by
  unfold BindM.popStruct
  split
  · next tag _ => exact pop_bind .refl fun d h hp => hf w rfl tag d h hp
  · rw [bind_assoc]
    apply pop_bind .refl
    intro t h ht
    have hc : Course true w { w with header := h } := .single (.claim (Header.pop_ok ht).1)
    rw [bind_assoc]
    refine recordBehind_bind hc fun tag _ => ?_
    refine Ends.imp (pop_bind .refl fun d h' hp => hf { w with header := h } rfl tag d h' hp) ?_
    exact fun _ _ ⟨he, hp⟩ => ⟨hc.weaken.trans he, hp⟩

end Continues

theorem onRegistry_run (step : RegistryM α) (w : Workspace) :
    (BindM.onRegistry step).run.run w =
      ((step.run.run w.context.generics).1,
        { w with context := { w.context with generics := (step.run.run w.context.generics).2 } }) := by
  rcases h : step.run.run w.context.generics with ⟨result, r⟩
  have hrun : (BindM.onRegistry step).run.run w =
      (BindM.ofExcept (step.run.run w.context.generics).1).run.run
        { w with context := { w.context with generics := (step.run.run w.context.generics).2 } } := rfl
  rw [hrun, h]
  cases result <;> rfl

/-- What follows a step on the generics, once the losses that its failure means are known. -/
theorem Continues.onRegistry_bind {w₀ w : Workspace} {step : RegistryM α} {f : α → BindM β}
    {Q : β → Workspace → Prop} {r : Registry} {result : Except BindError α}
    (hrun : step.run.run w.context.generics = (result, r))
    (hlost : Move false w₀ { w with context := { w.context with generics := r } })
    (hok : ∀ a, result = .ok a → Continues w₀
      { w with context := { w.context with generics := r } } (f a) Q) :
    Continues w₀ w (BindM.onRegistry step >>= f) Q := by
  refine Ends.bind (P := fun res w' =>
    res = result ∧ w' = { w with context := { w.context with generics := r } }) ?_ ?_ ?_
  · unfold Ends
    rw [onRegistry_run, hrun]
    exact ⟨rfl, rfl⟩
  · rintro a _ ⟨rfl, rfl⟩
    exact hok a rfl
  · rintro e _ ⟨rfl, rfl⟩
    exact ⟨.single hlost, fun _ hb => by cases hb⟩

/-- The step gives a bound function its place, or fails and leaves all as it is. -/
def Places (kind : FuncKind) (f : Func) (x : BindM Unit) (w : Workspace) : Prop :=
  Ends x w fun result w' =>
    match result with
    | .ok _ => Placed f kind w.context w'.context ∧ w'.header = w.header
    | .error _ => w' = w

theorem Continues.bindFunc {w : Workspace} {name : String} {d : Decl} {h : Header}
    (taken : w.header.pop .function name = .ok (d, h)) {kind : FuncKind} {options : FuncOptions}
    {place : Func → BindM Unit}
    (hp : ∀ f r, Places kind f (place f) ⟨{ w.context with generics := r }, h⟩) :
    Continues w { w with header := h } (BindM.bindFunc d kind options >>= place)
      fun _ _ => True := by
  rcases hb : (Func.bind h.source d kind options).run.run w.context.generics with ⟨res, r⟩
  have hlost : Move false w ⟨{ w.context with generics := r }, h⟩ := .loseFunc taken hb
  rw [BindM.bindFunc, bind_assoc]
  refine getHeader_bind (onRegistry_bind hb hlost fun f hf => ?_)
  refine (hp f r).imp fun result w' hplaced => ⟨?_, fun _ _ => trivial⟩
  cases result with
  | ok a =>
    obtain ⟨c, h'⟩ := w'
    obtain ⟨hplaced, rfl⟩ := hplaced
    exact .single (.bindFunc taken (hf ▸ hb) hplaced)
  | error e =>
    obtain rfl : w' = _ := hplaced
    exact .single hlost

theorem modifyClass_ends {name : String} {f : Class → Class} {w : Workspace}
    {Q : Except BindError Unit → Workspace → Prop}
    (h : Q (.ok ()) { w with context := w.context.changeClass name f }) :
    Ends (BindM.modifyClass name f) w Q := h

theorem getContext_bind_ends {f : Context → BindM α} {w : Workspace}
    {Q : Except BindError α → Workspace → Prop} (h : Ends (f w.context) w Q) :
    Ends (BindM.getContext >>= f) w Q := h

theorem getClass_ends (name : String) (w : Workspace) :
    Ends (BindM.getClass name) w fun result w' =>
      w' = w ∧ ∀ k, result = .ok k → w.context.getClass? name = some k := by
  apply getContext_bind_ends
  split
  · next k hk => exact ⟨rfl, fun k' hk' => by cases hk'; exact hk⟩
  · exact ⟨rfl, fun k' hk' => by cases hk'⟩

/-- The two tables that the functions of a class are entered into. -/
inductive FuncTable where
  | methods | funcs

namespace FuncTable

def kind : FuncTable → FuncKind
  | .methods => .method
  | .funcs => .static

def entries : FuncTable → Class → List (String × Func)
  | .methods, k => k.methods
  | .funcs, k => k.funcs

def append (added : List (String × Func)) : FuncTable → Class → Class
  | .methods, k => { k with methods := k.methods ++ added }
  | .funcs, k => { k with funcs := k.funcs ++ added }

def insert (cls name : String) (f : Func) : FuncTable → BindM Unit
  | .methods => BindM.insertMethod cls name f
  | .funcs => BindM.insertFunc cls name f

theorem insert_eq (t : FuncTable) (cls name : String) (f : Func) :
    t.insert cls name f = (do
      if (t.entries (← BindM.getClass cls)).any (·.1 == name) then
        throw (.duplicateMethod cls name f.function.location)
      BindM.modifyClass cls (t.append [(name, f)])) := by
  cases t <;> rfl

theorem insert_ends (t : FuncTable) (cls name : String) (f : Func) (w : Workspace) :
    Ends (t.insert cls name f) w fun result w' =>
      match result with
      | .ok _ => ∃ k, w.context.getClass? cls = some k ∧ (t.entries k).any (·.1 == name) = false ∧
          w' = { w with context := w.context.changeClass cls (t.append [(name, f)]) }
      | .error _ => w' = w := by
  rw [insert_eq]
  refine (getClass_ends cls w).bind ?_ ?_
  · rintro k _ ⟨rfl, hk⟩
    by_cases ht : (t.entries k).any (·.1 == name)
    · simp only [ht, if_true]
      exact rfl
    · simp only [ht, if_false, Bool.false_eq_true]
      exact modifyClass_ends ⟨k, hk k rfl, (Bool.not_eq_true _).mp ht, rfl⟩
  · rintro e _ ⟨rfl, -⟩
    rfl

end FuncTable

theorem insertMethod_places (cls name : String) (f : Func) (w : Workspace) :
    Places .method f (BindM.insertMethod cls name f) w := by
  refine (FuncTable.methods.insert_ends cls name f w).imp fun result w' h => ?_
  cases result with
  | error e => exact h
  | ok a =>
    obtain ⟨k, hk, hfree, rfl⟩ := h
    exact ⟨.method hk hfree, rfl⟩

theorem insertFunc_places (cls name : String) (f : Func) (w : Workspace) :
    Places .static f (BindM.insertFunc cls name f) w := by
  refine (FuncTable.funcs.insert_ends cls name f w).imp fun result w' h => ?_
  cases result with
  | error e => exact h
  | ok a =>
    obtain ⟨k, hk, hfree, rfl⟩ := h
    exact ⟨.static hk hfree, rfl⟩

theorem insertGenericMethod_places (generic rename : String) (markers : GenericMarkers) (f : Func)
    (w : Workspace) :
    Places (.generic markers) f (do
      match (← BindM.getContext).generics.get? generic with
      | none => throw (.notFound "generic" generic (← BindM.getHeader).name false)
      | some g =>
        let g ← BindM.ofExcept (g.insertMethod rename f)
        BindM.modifyContext fun c => { c with generics := c.generics.modify generic fun _ => g })
      w := by
  apply getContext_bind_ends
  split
  · rfl
  · next g hg =>
    cases hm : g.insertMethod rename f with
    | error e => rfl
    | ok g' => exact ⟨.generic hg hm, rfl⟩

namespace Continues

variable {w : Workspace}

theorem addMethod (cls name rename : String) (options : FuncOptions) :
    Continues w w (BindM.addMethod cls name rename options) fun _ _ => True :=
  pop_bind .refl fun _ _ taken => bindFunc taken fun f _ => insertMethod_places cls rename f _

theorem addFunc (cls name rename : String) (options : FuncOptions) :
    Continues w w (BindM.addFunc cls name rename options) fun _ _ => True :=
  pop_bind .refl fun _ _ taken => bindFunc taken fun f _ => insertFunc_places cls rename f _

theorem addGenericMethod (generic name rename : String) (markers : GenericMarkers) :
    Continues w w (BindM.addGenericMethod generic name rename markers) fun _ _ => True :=
  pop_bind .refl fun _ _ taken => bindFunc taken fun f _ =>
    insertGenericMethod_places generic rename markers f _

theorem addConstructor (cls name : String) :
    Continues w w (BindM.addConstructor cls name) fun _ _ => True := by
  apply pop_bind .refl
  intro d h taken
  have hc : Course true w { w with header := h } := .single (.claim (Header.pop_ok taken).1)
  refine getClass_bind hc fun k hk => ?_
  by_cases hfull : k.constructor.isSome
  · simp only [hfull, if_true]
    exact .throw _ _ hc
  · simp only [hfull, if_false, Bool.false_eq_true]
    apply bindFunc taken
    intro f r
    exact modifyClass_ends ⟨.constructor hk (by simpa using hfull), rfl⟩

theorem addDestructor (cls name : String) :
    Continues w w (BindM.addDestructor cls name) fun _ _ => True := by
  apply pop_bind .refl
  intro d h taken
  have hc : Course true w { w with header := h } := .single (.claim (Header.pop_ok taken).1)
  refine getClass_bind hc fun k hk => ?_
  by_cases hfull : k.destructor.isSome
  · simp only [hfull, if_true]
    exact .throw _ _ hc
  · simp only [hfull, if_false, Bool.false_eq_true]
    apply bindFunc taken
    intro f r
    exact modifyClass_ends ⟨.destructor hk (by simpa using hfull), rfl⟩

theorem addInclude (header : String) :
    Continues w w (BindM.addInclude header) fun _ _ => True :=
  (modifyContext (.addInclude header)).imp fun _ _ _ => trivial

theorem ignore (name : String) : Continues w w (BindM.ignore name) fun _ _ => True := by
  apply getHeader_bind
  apply ofExcept_bind .refl
  intro h hi
  exact (setHeader (Header.ignore_later hi)).imp fun _ _ _ => trivial

theorem ignoreAll (stem : String) : Continues w w (BindM.ignoreAll stem) fun _ _ => True := by
  apply getHeader_bind
  apply (setHeader (w.header.claim_later _)).bind
  intro _ w' _
  exact .pure .refl trivial

theorem addPythonMethod (generic signature : String) (body : List String) :
    Continues w w (BindM.addPythonMethod generic signature body) fun _ _ => True :=
  (modifyContext (.dress fun _ => rfl)).imp fun _ _ _ => trivial

theorem addExtension (generic key : String) (lines : List String) :
    Continues w w (BindM.addExtension generic key lines) fun _ _ => True :=
  (modifyContext (.dress fun _ => rfl)).imp fun _ _ _ => trivial

theorem addClass (spec : ClassSpec) :
    Continues w w (BindM.addClass spec) fun cls w' => cls ∈ w'.context.classes := by
  apply getContext_bind
  by_cases hc : w.context.classes.any (·.name == spec.typedefName)
  · simp only [hc, if_true]
    exact .throw _ _ .refl
  · simp only [hc, if_false, Bool.false_eq_true]
    refine popStruct_bind fun w₁ hw tag d h taken => getHeader_bind ?_
    rw [← hw] at hc ⊢
    rcases hb : (Class.ofRecord h.source spec w₁.context.options.stale d).run.run
      w₁.context.generics with ⟨result, r⟩
    refine onRegistry_bind (w := { w₁ with header := h }) hb (.loseClass taken hb) fun a ha => ?_
    subst ha
    refine ⟨.single (.bindClass taken ((Bool.not_eq_true _).mp hc) hb), fun cls hcls => ?_⟩
    cases hcls
    exact List.mem_append_right _ List.mem_cons_self

theorem addDirector (typedefName : String) :
    Continues w w (BindM.addDirector typedefName) fun _ _ => True := by
  apply getContext_bind
  by_cases hc : w.context.directors.any (·.name == typedefName)
  · simp only [hc, if_true]
    exact .throw _ _ .refl
  · simp only [hc, if_false, Bool.false_eq_true]
    apply (addClass _).bind
    intro cls w' hcls
    apply ofExcept_bind .refl
    intro d hd
    exact (modifyContext (.bindDirector hcls hd)).imp fun _ _ _ => trivial

theorem addEnum (typedefName : String) :
    Continues w w (BindM.addEnum typedefName) fun _ _ => True := by
  apply getContext_bind
  by_cases hc : w.context.enums.any (·.typedefName == typedefName)
  · simp only [hc, if_true]
    exact .throw _ _ .refl
  · simp only [hc, if_false, Bool.false_eq_true]
    apply pop_bind .refl
    intro t h named
    have hclaim : Course true w { w with header := h } :=
      .single (.claim (Header.pop_ok named).1)
    split
    · apply pop_bind hclaim
      intro e h' taken
      have hlater := (Header.pop_ok named).1.trans (Header.pop_ok taken).1
      apply ofExcept_bind (.single (.claim hlater))
      intro constants listed
      exact (modifyContext (.bindEnum named taken listed)).imp fun _ _ _ => trivial
    · exact .throw _ _ hclaim

end Continues

/-- Taking constants by name changes only the header, also when it fails halfway. -/
theorem popDefines_ends (names : List String) (w : Workspace) :
    Ends (BindM.popDefines names) w fun result w' =>
      w'.context = w.context ∧ w.header.Later w'.header ∧ ∀ defines, result = .ok defines →
        ∃ ds, Taken .define w.header ds w'.header ∧
          defines = ds.map fun d => (d.name, d.value.getD "") := by
  induction names generalizing w with
  | nil => exact ⟨rfl, .refl _, fun defines hd => by cases hd; exact ⟨[], .nil, rfl⟩⟩
  | cons name names ih =>
    refine (pop_ends .define name w).bind ?_ ?_
    · rintro d _ ⟨h, first, rfl⟩
      have hlater := (Header.pop_ok first).1
      refine (ih { w with header := h }).bind ?_ ?_
      · rintro defines w' ⟨hw, hl, hd⟩
        refine ⟨hw, hlater.trans hl, fun defines' he => ?_⟩
        cases he
        obtain ⟨ds, rest, rfl⟩ := hd defines rfl
        exact ⟨d :: ds, .cons first rest, rfl⟩
      · rintro e w' ⟨hw, hl, -⟩
        exact ⟨hw, hlater.trans hl, nofun⟩
    · rintro e _ rfl
      exact ⟨rfl, .refl _, nofun⟩

namespace Continues

variable {w : Workspace}

theorem addDefines (names : List String) (stem : Option String) :
    Continues w w (BindM.addDefines names stem) fun _ _ => True := by
  apply getHeader_bind
  refine (popDefines_ends _ w).bind ?_ ?_
  · rintro defines ⟨c, h⟩ ⟨hc, hlater, hd⟩
    obtain ⟨ds, taken, rfl⟩ := hd defines rfl
    obtain rfl : c = w.context := hc
    exact (modifyContext (.bindDefines taken)).imp fun _ _ _ => trivial
  · rintro e ⟨c, h⟩ ⟨hc, hlater, -⟩
    obtain rfl : c = w.context := hc
    exact ⟨.single (.claim hlater), nofun⟩

theorem scanMethods (cls structName stem : String) (marker : Option String)
    (names : List String) :
    Continues w w (BindM.scanMethods cls structName stem marker names) fun _ _ => True := by
  induction names generalizing w with
  | nil => exact .pure .refl trivial
  | cons name names ih =>
    apply getHeader_bind
    split
    · exact ih
    · next d _ =>
      by_cases hv : BindM.visible marker d
      · simp only [hv, if_true]
        apply ofExcept_bind .refl
        intro f _
        by_cases hr : f.takesReceiver structName
        · simp only [hr, if_true]
          apply (addMethod _ _ _ _).bind
          intro _ w' _
          exact ih.bind fun _ _ _ => .pure .refl trivial
        · simp only [hr, if_false, Bool.false_eq_true]
          exact ih
      · simp only [hv, if_false, Bool.false_eq_true]
        exact ih

theorem scanFuncs (cls stem : String) (marker : Option String) (names : List String) :
    Continues w w (BindM.scanFuncs cls stem marker names) fun _ _ => True := by
  induction names generalizing w with
  | nil => exact .pure .refl trivial
  | cons name names ih =>
    apply getHeader_bind
    by_cases hv : (w.header.get? .function name).any (BindM.visible marker)
    · simp only [hv, if_true]
      apply (addFunc _ _ _ _).bind
      intro _ w' _
      exact ih.bind fun _ _ _ => .pure .refl trivial
    · simp only [hv, if_false, Bool.false_eq_true]
      exact ih

theorem addMethodsWith (cls stem : String) :
    Continues w w (BindM.addMethodsWith cls stem) fun _ _ => True :=
  getClass_bind .refl fun _ _ => getContext_bind (getHeader_bind (scanMethods _ _ _ _ _))

theorem addFuncsWith (cls stem : String) :
    Continues w w (BindM.addFuncsWith cls stem) fun _ _ => True :=
  getContext_bind (getHeader_bind (scanFuncs _ _ _ _))

end Continues

/-- Registering a generic is a turn of its own; it fails without a trace but for the typedef. -/
theorem addGeneric_turn (typedefName : String) (pointer : PointerPolicy)
    (dependencies : List String) (w : Workspace) :
    Ends (BindM.addGeneric typedefName pointer dependencies) w fun result w' =>
      Turn result.isOk w (.addGeneric typedefName pointer dependencies) w' := by
  refine (pop_ends .typedef typedefName w).bind ?_ ?_
  · rintro d _ ⟨h, taken, rfl⟩
    have hclaim : ∀ ok, Turn ok w (.addGeneric typedefName pointer dependencies)
        { w with header := h } := fun ok => .moves (.single (.claim (Header.pop_ok taken).1))
    unfold BindM.recordBehind
    cases behind : d.type.bind RawType.recordName with
    | none => exact hclaim false
    | some tag =>
      simp only [pure_bind]
      apply getContext_bind_ends
      cases registered : w.context.generics.register (.bare typedefName tag pointer dependencies) with
      | error e => exact hclaim false
      | ok r => exact .registers taken behind registered
  · rintro e _ rfl
    exact .moves .refl

theorem BindCall.turn (call : BindCall) (w : Workspace) :
    Ends call.run w fun result w' => Turn result.isOk w call w' := by
  have hmoves : ∀ {x : BindM Unit}, Continues w w x (fun _ _ => True) →
      Ends x w fun result w' => Turn result.isOk w call w' :=
    fun hx => Ends.imp hx fun _ _ ⟨hc, _⟩ => .moves hc
  have hcount : ∀ {x : BindM Nat}, Continues w w x (fun _ _ => True) →
      Ends (do let _ ← x) w fun result w' => Turn result.isOk w call w' :=
    fun hx => hmoves (hx.bind fun _ _ _ => .pure .refl trivial)
  cases call with
  | addInclude header => exact hmoves (.addInclude header)
  | ignore name => exact hmoves (.ignore name)
  | ignoreAll stem => exact hcount (.ignoreAll stem)
  | addGeneric typedefName pointer dependencies =>
    exact addGeneric_turn typedefName pointer dependencies w
  | addGenericMethod generic name rename markers => exact hmoves (.addGenericMethod _ _ _ _)
  | addPythonMethod generic signature body => exact hmoves (.addPythonMethod _ _ _)
  | addExtension generic key lines => exact hmoves (.addExtension _ _ _)
  | addClass spec =>
    exact hmoves ((Continues.addClass spec).bind fun _ _ _ => .pure .refl trivial)
  | addDirector typedefName => exact hmoves (.addDirector typedefName)
  | addEnum typedefName => exact hmoves (.addEnum typedefName)
  | addDefines names stem => exact hmoves (.addDefines names stem)
  | addConstructor cls name => exact hmoves (.addConstructor cls name)
  | addDestructor cls name => exact hmoves (.addDestructor cls name)
  | addMethod cls name rename options => exact hmoves (.addMethod _ _ _ _)
  | addFunc cls name rename options => exact hmoves (.addFunc _ _ _ _)
  | addMethodsWith cls stem => exact hcount (.addMethodsWith cls stem)
  | addFuncsWith cls stem => exact hcount (.addFuncsWith cls stem)

namespace Session

/-- What a call makes of the session: the header at its place takes part in the turn. -/
theorem call_turn (s : Session) {place : Nat} {h : Header} (c : BindCall)
    (hh : s.headers[place]? = some h) : ∃ w',
      Turn (s.call place c).1.isOk ⟨s.context, h⟩ c w' ∧
        (s.call place c).2 = ⟨w'.context, s.headers.set place w'.header⟩ := by
  unfold call
  rw [hh]
  exact ⟨_, c.turn ⟨s.context, h⟩, rfl⟩

theorem call_none (s : Session) {place : Nat} (c : BindCall) (hh : s.headers[place]? = none) :
    s.call place c = (.ok (), s) := by
  unfold call
  rw [hh]

/-- Every header is there at a later time, and none that was not there before. -/
structure Later (s s' : Session) : Prop where
  onward : ∀ {place : Nat} {h : Header}, s.headers[place]? = some h →
    ∃ h', s'.headers[place]? = some h' ∧ h.Later h'
  back : ∀ {place : Nat} {h' : Header}, s'.headers[place]? = some h' →
    ∃ h, s.headers[place]? = some h ∧ h.Later h'

theorem Later.refl (s : Session) : Later s s :=
  ⟨fun h => ⟨_, h, .refl _⟩, fun h => ⟨_, h, .refl _⟩⟩

theorem Later.trans {s s' s'' : Session} (hl : Later s s') (hl' : Later s' s'') : Later s s'' := by
  constructor
  · intro place h hh
    obtain ⟨h', hh', hle⟩ := hl.onward hh
    obtain ⟨h'', hh'', hle'⟩ := hl'.onward hh'
    exact ⟨h'', hh'', hle.trans hle'⟩
  · intro place h'' hh''
    obtain ⟨h', hh', hle'⟩ := hl'.back hh''
    obtain ⟨h, hh, hle⟩ := hl.back hh'
    exact ⟨h, hh, hle.trans hle'⟩

theorem call_later (s : Session) (place : Nat) (c : BindCall) : s.Later (s.call place c).2 := by
  cases hh : s.headers[place]? with
  | none =>
    rw [s.call_none c hh]
    exact .refl s
  | some h =>
    obtain ⟨w', hturn, he⟩ := s.call_turn c hh
    obtain ⟨hlt, -⟩ := List.getElem?_eq_some_iff.mp hh
    rw [he]
    constructor
    · intro other h' hh'
      by_cases ho : place = other
      · subst ho
        rw [hh] at hh'
        cases hh'
        exact ⟨w'.header, List.getElem?_set_self hlt, hturn.later⟩
      · exact ⟨h', by rw [← hh', List.getElem?_set_ne ho], .refl _⟩
    · intro other h' hh'
      by_cases ho : place = other
      · subst ho
        rw [List.getElem?_set_self hlt] at hh'
        cases hh'
        exact ⟨h, hh, hturn.later⟩
      · rw [List.getElem?_set_ne ho] at hh'
        exact ⟨h', hh', .refl _⟩

theorem perform_later (s : Session) (calls : List (Nat × BindCall)) :
    s.Later (s.perform calls).2 := by
  induction calls generalizing s with
  | nil => exact .refl s
  | cons entry calls ih => exact (s.call_later entry.1 entry.2).trans (ih _)

theorem perform_append (s : Session) (calls more : List (Nat × BindCall)) :
    (s.perform (calls ++ more)).2 = ((s.perform calls).2.perform more).2 := by
  induction calls generalizing s with
  | nil => rfl
  | cons entry calls ih => exact ih (s.call entry.1 entry.2).2

theorem perform_invariant {P : Context → Prop}
    (step : ∀ ok w call w', Turn ok w call w' → P w.context → P w'.context) (s : Session)
    (calls : List (Nat × BindCall)) (hs : P s.context) : P (s.perform calls).2.context := by
  induction calls generalizing s with
  | nil => exact hs
  | cons entry calls ih =>
    obtain ⟨place, c⟩ := entry
    refine ih (s.call place c).2 ?_
    cases hh : s.headers[place]? with
    | none => rwa [s.call_none c hh]
    | some h =>
      obtain ⟨w', hturn, he⟩ := s.call_turn c hh
      rw [he]
      exact step _ _ _ _ hturn hs

end Session

end Bindery
