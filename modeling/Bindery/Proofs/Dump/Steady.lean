import Bindery.Proofs.Dump.Placed

/-! Steps that always come to the same: the result does not depend on the state in which they begin. -/

namespace Bindery

section Steps

variable {σ ε α β : Type} {I : σ → Prop} {C : Prop}

/-- A step that, if `C`, gives the same result or fails, in whatever state of the invariant it begins. -/
def Steady (I : σ → Prop) (C : Prop) (x : StateT σ (Except ε) α) : Prop :=
  ∃ r : Option α, Gives I (C → r = none) x fun a => C → r = some a

namespace Steady

variable {x : StateT σ (Except ε) α} {f : α → StateT σ (Except ε) β}

theorem pure (a : α) : Steady I C (pure a : StateT σ (Except ε) α) :=
  ⟨some a, .pure fun _ => rfl⟩

theorem bind (hx : Steady I C x) (hf : ∀ a, Steady I C (f a)) : Steady I C (x >>= f) := by
  obtain ⟨r, hr⟩ := hx
  obtain ⟨g, hg⟩ := Classical.axiomOfChoice hf
  have hlost : (C → r = none) → C → r.bind g = none := by
    intro hnone hc
    rw [hnone hc, Option.bind_none]
  refine ⟨r.bind g, Gives.bind (hr.fails hlost) fun a ha => ?_⟩
  have hsame : C → r.bind g = g a := by
    intro hc
    rw [ha hc, Option.bind_some]
  have hrest := (hg a).fails fun hnone hc => (hsame hc).trans (hnone hc)
  exact hrest.imp fun b hb hc => (hsame hc).trans (hb hc)

theorem map (g : α → β) (hx : Steady I C x) : Steady I C (g <$> x) := by
  rw [map_eq_pure_bind]
  exact bind hx fun a => pure (g a)

theorem of_gives {a : α} (h : Gives I False x fun b => b = a) : Steady I C x :=
  ⟨some a, (h.fails False.elim).imp fun _ hb _ => congrArg some hb.symm⟩

theorem of_leaves {a : α} (h : Gives I False x fun _ => True)
    (ha : ∀ s, I s → Leaves s x fun b _ => b = a) : Steady I C x := by
  have hgives : Gives I False x fun b => b = a := by
    intro s hs
    obtain ⟨hok, herr⟩ := h s hs
    exact ⟨fun b s' hb => ⟨ha s hs b s' hb, (hok b s' hb).2⟩, herr⟩
  exact of_gives hgives

theorem lift (x : Except ε α) : Steady I C (liftM x : StateT σ (Except ε) α) := by
  refine ⟨x.toOption, (Gives.lift fun e he hc => ?_).imp fun a ha _ => ?_⟩
  · rw [he]
    rfl
  · rw [ha]
    rfl

theorem keeps (hx : Steady I C x) : Gives I True x fun _ => True := by
  obtain ⟨r, hr⟩ := hx
  exact (hr.fails fun _ => trivial).imp fun _ _ => trivial

/-- The result does not depend on the state before. -/
theorem run_eq (hx : Steady I C x) (hc : C) {s t : σ} (hs : I s) (ht : I t) :
    (x.run s).toOption.map (·.1) = (x.run t).toOption.map (·.1) := by
  obtain ⟨r, hr⟩ := hx
  have hresult : ∀ s, I s → (x.run s).toOption.map (·.1) = r := by
    intro s hs
    cases hrun : x.run s with
    | error e => exact ((hr s hs).2 e hrun hc).symm
    | ok p => exact (((hr s hs).1 p.1 p.2 hrun).1 hc).symm
  rw [hresult s hs, hresult t ht]

end Steady

end Steps

section Sources

variable {o : Origin} {C : Prop} {file : String} {owner : Location} {kind : DeclKind} {offset : Nat}

theorem SourceMap.location?_congr {m m' : SourceMap} (h : m.text? file = m'.text? file) :
    m.location? file offset = m'.location? file offset := by
  rw [location?, location?, h]

namespace SourceM

theorem read_steady : Steady o.Holds C (read o file) :=
  .of_gives read_gives

theorem location?_steady : Steady o.Holds C (location? o file offset) := by
  refine .of_leaves (a := (o.text? file).bind fun text =>
    (({} : SourceMap).insert file text).location? file offset) location?_gives fun m hm => ?_
  refine .bind (read_leaves hm) fun r m₁ ⟨h₁, hr, hcontains⟩ => .get_bind (.pure ?_)
  cases htext : o.text? file with
  | none =>
    have hunread : m₁.text? file = none := by
      by_contra hread
      obtain ⟨text, hread⟩ := Option.ne_none_iff_exists'.mp hread
      cases htext.symm.trans (h₁.holds file text hread)
    rw [SourceMap.location?, hunread]
    rfl
  | some text =>
    have hfound : m₁.contains file := hcontains (by rw [hr, htext]; rfl)
    obtain ⟨text', hread⟩ := Option.isSome_iff_exists.mp (SourceMap.contains_iff.mp hfound)
    have hsame : text' = text := Option.some.inj ((h₁.holds file text' hread).symm.trans htext)
    refine SourceMap.location?_congr ?_
    rw [hread, hsame, SourceMap.text?_insert, if_pos rfl]

theorem textThrough_steady {start stop : Option Point} : Steady o.Holds C (textThrough o start stop) := by
  unfold textThrough
  split
  · split
    · refine .bind read_steady fun text => ?_
      cases text with
      | none => exact .pure _
      | some text => exact .bind (.lift _) fun _ => .pure _
    · exact .pure _
  · exact .pure _

theorem paramPlace_steady {text : Option ParamText} : Steady o.Holds C (paramPlace o owner text) := by
  cases text with
  | none => exact .pure _
  | some p => exact .bind location?_steady fun _ => .pure _

theorem paramStart_steady {text : Option ParamText} : Steady o.Holds C (paramStart o owner text) := by
  cases text with
  | none => exact .pure _
  | some p => exact location?_steady

theorem paramTexts_steady (d : Decl) : Steady o.Holds C (paramTexts o d) := by
  unfold paramTexts
  split
  · exact .pure _
  · refine .bind (.lift _) fun stop => .bind read_steady fun text => ?_
    cases text with
    | none => exact .pure _
    | some text => exact .lift _

end SourceM

theorem Node.attributeName_steady (n : Node) : Steady o.Holds C (n.attributeName o) := by
  unfold attributeName
  split
  · exact .pure _
  · refine .bind SourceM.textThrough_steady fun spelled => ?_
    split
    · exact .pure _
    · split
      · exact .pure _
      · exact .bind SourceM.read_steady fun _ => .pure _

theorem attributeNames_steady (ns : List Node) : Steady o.Holds C (attributeNames o ns) := by
  induction ns with
  | nil => exact .pure _
  | cons n ns ih =>
    have hrest : ∀ name : Option String, Steady o.Holds C
        (do pure (name.toList ++ (← attributeNames o ns))) :=
      fun _ => .bind ih fun _ => .pure _
    rw [attributeNames]
    split
    · exact .bind n.attributeName_steady hrest
    · exact .bind (.pure _) hrest

theorem Node.declared_steady (n : Node) (kind : DeclKind) : Steady o.Holds C (n.declared o kind) :=
  .bind (.lift _) fun _ => .bind (attributeNames_steady _) fun _ => .pure _

mutual

theorem RawType.paramDecls_steady (texts : Option (List ParamText)) (owner : Location) :
    ∀ t : RawType, Steady o.Holds C (t.paramDecls o texts owner)
  | ⟨kind, _, _⟩ => kind.paramDecls_steady texts owner

theorem RawKind.paramDecls_steady (texts : Option (List ParamText)) (owner : Location) :
    ∀ k : RawKind, Steady o.Holds C (k.paramDecls o texts owner)
  | .function _ args _ => RawType.argDecls_steady _ owner args
  | .pointer pointee => pointee.paramDecls_steady texts owner
  | .constantArray element _ => element.paramDecls_steady texts owner
  | .incompleteArray element => element.paramDecls_steady texts owner
  | .builtin _ => .pure _
  | .elaborated _ => .pure _
  | .typedef _ _ _ => .pure _
  | .record _ _ => .pure _
  | .enum _ => .pure _
  | .unexposed _ => .pure _

theorem RawType.argDecls_steady (texts : Option (List ParamText)) (owner : Location) :
    ∀ ts : List RawType, Steady o.Holds C (RawType.argDecls o texts owner ts)
  | [] => .pure _
  | t :: ts =>
    .bind SourceM.paramPlace_steady fun place =>
      .bind SourceM.paramStart_steady fun _ =>
        .bind (t.paramDecls_steady _ place) fun _ =>
          .bind (RawType.argDecls_steady _ owner ts) fun _ => .pure _

end

theorem Decl.withType_steady (d : Decl) (t : RawType) : Steady o.Holds C (d.withType o t) := by
  unfold withType
  split
  · exact .bind (SourceM.paramTexts_steady d) fun _ => .bind (t.paramDecls_steady _ _) fun _ => .pure _
  · exact .pure _

theorem Node.typed_steady (n : Node) (kind : DeclKind) (t : RawType) :
    Steady o.Holds C (n.typed o kind t) :=
  .bind (n.declared_steady kind) fun d => d.withType_steady t

theorem Node.constantValue_steady (n : Node) (before : Option (String × String)) :
    Steady o.Holds C (n.constantValue o before) := by
  unfold constantValue
  split
  · exact .pure _
  · split
    · exact .bind (.bind SourceM.textThrough_steady fun _ => .pure _) fun _ => .pure _
    · exact .lift _

theorem constants_steady (before : Option (String × String)) (ns : List Node) :
    Steady o.Holds C (constants o before ns) := by
  induction ns generalizing before with
  | nil => exact .pure _
  | cons n ns ih =>
    exact .bind (n.constantValue_steady before) fun _ =>
      .bind (n.declared_steady .enumConstant) fun _ => .bind (ih _) fun _ => .pure _

theorem Node.enumeration_steady (n : Node) : Steady o.Holds C (n.enumeration o) :=
  .bind (n.declared_steady .enum) fun _ => .bind (constants_steady none _) fun _ => .pure _

end Sources

end Bindery
