import Bindery.Proofs.Binding.Move

/-! What calls do to the generics and the classes of an interface, as chains of a few kinds of
changes. -/

namespace Bindery

/-- One change of a context. In the last two the context keeps what was recorded while a function or
a struct was bound, but not the function or the struct. -/
inductive Change : Bool → Context → Context → Prop where
  | aside {ok : Bool} {c c' : Context} (generics : c'.generics = c.generics)
      (classes : c'.classes = c.classes) (options : c'.options = c.options) : Change ok c c'
  | register {ok : Bool} {c : Context} {name tag : String} {pointer : PointerPolicy}
      {dependencies : List String} {r : Registry}
      (registered : c.generics.register (.bare name tag pointer dependencies) = .ok r) :
      Change ok c { c with generics := r }
  | dress {ok : Bool} {c : Context} {name : String} {f : Generic → Generic}
      (same : ∀ g, f g =
        { g with pythonMethods := (f g).pythonMethods, extensions := (f g).extensions }) :
      Change ok c { c with generics := c.generics.modify name f }
  | bindFunc {ok : Bool} {c c' : Context} {source : SourceMap} {d : Decl} {kind : FuncKind}
      {options : FuncOptions} {f : Func} {r : Registry}
      (bound : (Func.bind source d kind options).run.run c.generics = (.ok f, r))
      (placed : Placed f kind { c with generics := r } c') : Change ok c c'
  | bindClass {ok : Bool} {c : Context} {source : SourceMap} {spec : ClassSpec} {record : Decl}
      {cls : Class} {stale : List String} {r : Registry}
      (fresh : c.classes.any (·.name == spec.typedefName) = false)
      (bound : (Class.ofRecord source spec c.options.stale record).run.run c.generics =
        (.ok (cls, stale), r)) :
      Change ok c
        { c with generics := r, classes := c.classes ++ [cls], warnings := c.warnings ++ stale }
  | loseFunc {c : Context} {source : SourceMap} {d : Decl} {kind : FuncKind}
      {options : FuncOptions} {result : Except BindError Func} {r : Registry}
      (bound : (Func.bind source d kind options).run.run c.generics = (result, r)) :
      Change false c { c with generics := r }
  | loseClass {c : Context} {source : SourceMap} {spec : ClassSpec} {policy : StalePolicy}
      {record : Decl} {result : Except BindError (Class × List String)} {r : Registry}
      (bound : (Class.ofRecord source spec policy record).run.run c.generics = (result, r)) :
      Change false c { c with generics := r }

theorem Change.weaken {ok : Bool} {c c' : Context} (h : Change true c c') : Change ok c c' := by
  cases h with
  | aside hg hc ho => exact .aside hg hc ho
  | register h => exact .register h
  | dress h => exact .dress h
  | bindFunc h hp => exact .bindFunc h hp
  | bindClass h hb => exact .bindClass h hb

abbrev Evolution (ok : Bool) : Context → Context → Prop :=
  Relation.ReflTransGen (Change ok)

theorem Evolution.weaken {ok : Bool} {c c' : Context} (h : Evolution true c c') :
    Evolution ok c c' :=
  Relation.ReflTransGen.mono (fun _ _ hc => Change.weaken hc) _ _ h

theorem Evolution.lossy {ok : Bool} {c c' : Context} (h : Evolution ok c c') :
    Evolution false c c' := by
  cases ok with
  | true => exact h.weaken
  | false => exact h

theorem Move.change {ok : Bool} {w w' : Workspace} (h : Move ok w w') :
    Change ok w.context w'.context := by
  cases h with
  | claim _ => exact .aside rfl rfl rfl
  | addInclude header =>
    unfold Context.addInclude
    split <;> exact .aside rfl rfl rfl
  | dress h => exact .dress h
  | bindFunc _ hb hp => exact .bindFunc hb hp
  | bindClass _ hf hb => exact .bindClass hf hb
  | bindDirector _ _ => exact .aside rfl rfl rfl
  | bindEnum _ _ _ => exact .aside rfl rfl rfl
  | bindDefines _ => exact .aside rfl rfl rfl
  | loseFunc _ hb => exact .loseFunc hb
  | loseClass _ hb => exact .loseClass hb

theorem Turn.evolution {ok : Bool} {w w' : Workspace} {call : BindCall} (h : Turn ok w call w') :
    Evolution ok w.context w'.context := by
  cases h with
  | moves hc => exact Relation.ReflTransGen.lift Workspace.context (fun _ _ hm => Move.change hm) _ _ hc
  | registers _ _ hr => exact .single (.register hr)

namespace Session

theorem call_evolves (s : Session) (place : Nat) (c : BindCall) :
    Evolution (s.call place c).1.isOk s.context (s.call place c).2.context := by
  cases hh : s.headers[place]? with
  | none =>
    rw [s.call_none c hh]
  | some h =>
    obtain ⟨w', hturn, he⟩ := s.call_turn c hh
    rw [he]
    exact hturn.evolution

/-- A session is a chain of changes, without losses if every call in it succeeds. -/
theorem perform_evolves (s : Session) (calls : List (Nat × BindCall)) :
    Evolution ((s.perform calls).1.all (·.isOk)) s.context (s.perform calls).2.context := by
  induction calls generalizing s with
  | nil => exact .refl
  | cons entry calls ih =>
    obtain ⟨place, c⟩ := entry
    have hcall := s.call_evolves place c
    have hrest := ih (s.call place c).2
    simp only [perform, List.all_cons]
    -- after a call that failed losses count for the whole session
    cases hok : (s.call place c).1.isOk with
    | true =>
      rw [hok] at hcall
      exact hcall.weaken.trans hrest
    | false =>
      rw [hok] at hcall
      exact hcall.trans hrest.lossy

end Session

end Bindery
