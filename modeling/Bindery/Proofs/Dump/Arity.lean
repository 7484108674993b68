import Bindery.Proofs.CType.Classified
import Bindery.Proofs.CType.Desugared
import Bindery.Proofs.Dump.Declaration

/-! How many parameters a declaration gets: one for each argument of the function in its type. -/

namespace Bindery

variable {o : Origin}

theorem RawType.argDecls_length (texts : Option (List ParamText)) (owner : Location)
    (ts : List RawType) :
    Gives (fun _ => True) True (argDecls o texts owner ts) fun ds => ds.length = ts.length := by
  induction ts generalizing texts with
  | nil => exact .pure rfl
  | cons t ts ih =>
    refine .bind (.any _) fun place _ => .bind (.any _) fun start _ => ?_
    refine .bind (.any _) fun children _ => ?_
    exact .bind (ih _) fun ds hds => .pure (congrArg (· + 1) hds)

theorem RawType.length_desugaredList (ts : List RawType) :
    (desugaredList ts).length = ts.length := by
  induction ts with
  | nil => rfl
  | cons t ts ih => simp [desugaredList, ih]

/-- The first function on the way along the results has no arguments. -/
def RawType.Argless (t : RawType) : Prop :=
  ∃ c f, t.desugared.classifySugarless = .ok c ∧ c.returned.head? = some f ∧ f.arity = 0

theorem RawType.paramDecls_eq_nil (texts : Option (List ParamText)) (owner : Location) :
    ∀ (t : RawType) {c : CType} {f : FunctionUse}, t.desugared.classifySugarless = .ok c →
      c.returned.head? = some f → f.arity = 0 →
      Gives (fun _ => True) True (t.paramDecls o texts owner) fun ds => ds = []
  | ⟨kind, spelling, isConst⟩, ⟨ckind, cspelling, cisConst⟩, f, h, hf, harity => by
    obtain ⟨c', hc', hkind⟩ := desugaredKind_classified h
    obtain rfl : c'.kind = ckind := hkind
    cases kind with
    | pointer pointee =>
      obtain ⟨t, ht, rfl⟩ := except_bind_pure_iff.mp hc'
      exact paramDecls_eq_nil texts owner pointee ht hf harity
    | function result args variadic =>
      obtain ⟨result', _, hrest⟩ := except_bind_ok hc'
      obtain ⟨args', hargs, he⟩ := except_bind_ok hrest
      cases he
      cases hf
      have hlength : args'.length = (desugaredList args).length :=
        (classifyListWith_iff.mp hargs).length_eq.symm
      refine (argDecls_length _ owner args).imp fun ds hds => List.eq_nil_of_length_eq_zero ?_
      rw [hds, ← length_desugaredList, ← hlength]
      exact harity
    | constantArray element n =>
      obtain ⟨t, _, rfl⟩ := except_bind_pure_iff.mp hc'
      cases hf
    | incompleteArray element =>
      obtain ⟨t, _, rfl⟩ := except_bind_pure_iff.mp hc'
      cases hf
    | builtin p => exact .pure rfl
    | elaborated inner => exact .pure rfl
    | typedef name underlying decl => exact .pure rfl
    | record name isUnion => exact .pure rfl
    | enum name => exact .pure rfl
    | unexposed text => exact .pure rfl

/-- What the type that a declaration is given says of its members and parameters. -/
structure Decl.Typed (t : RawType) (d : Decl) : Prop where
  type : d.type = some t
  other : t.isFunctional = false → d.children = []
  argless : t.Argless → d.children = []

theorem Node.typed_gives (n : Node) (kind : DeclKind) (t : RawType) :
    Gives (fun _ => True) True (n.typed o kind t) (Decl.Typed t) := by
  have hdeclared : Gives (fun _ => True) True (n.declared o kind) fun d => d.children = [] :=
    .bind (.any _) fun _ _ => .bind (.any _) fun _ _ => .pure rfl
  refine hdeclared.bind fun d hd => ?_
  unfold Decl.withType
  split
  next hfunctional =>
    have hnever : t.isFunctional = false → False := by simp [hfunctional]
    have hparams : ∀ texts, Gives (fun _ => True) True (t.paramDecls o texts d.location) fun ds =>
        t.Argless → ds = [] := by
      intro texts
      by_cases h : t.Argless
      · obtain ⟨c, f, hc, hf, harity⟩ := h
        exact (t.paramDecls_eq_nil texts d.location hc hf harity).imp fun _ hds _ => hds
      · exact (Gives.any _).imp fun _ _ hargless => absurd hargless h
    refine .bind (.any _) fun texts _ => (hparams texts).bind fun ds hds => .pure ⟨rfl, ?_, ?_⟩
    · exact fun hother => (hnever hother).elim
    · exact fun hargless => by rw [hd, hds hargless, List.append_nil]
  next => exact .pure ⟨rfl, fun _ => hd, fun _ => hd⟩

end Bindery
