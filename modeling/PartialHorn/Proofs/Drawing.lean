import PartialHorn.Proofs.Conclusion

namespace PartialHorn

namespace Structure

/-- An atom stays true under a binding with more values. -/
theorem Makes.extends {s : Structure} {b c : Binding} (hext : c.Extends b) {atom : Atom}
    (h : s.Makes b.value atom) : s.Makes c.value atom := by
  cases atom with
  | op op args result =>
    obtain ⟨xs, x, hargs, hresult, happ⟩ := h
    exact ⟨xs, x, hext.reads hargs, hext.value result x hresult, happ⟩
  | pred pred args =>
    obtain ⟨xs, hargs, hrel⟩ := h
    exact ⟨xs, hext.reads hargs, hrel⟩
  | eq lhs rhs =>
    obtain ⟨x, y, hl, hr, he⟩ := h
    exact ⟨x, y, hext.value lhs x hl, hext.value rhs y hr, he⟩

end Structure

namespace Action

open Structure

section Step

variable {rule : Rule} {atom : Atom} {b larger : Binding} {s t : Structure}
  (fitting : Fitting [atom] b) (h : (conclude rule b atom).Returns s larger t)

include fitting h

/-- Drawing a conclusion binds the result of an operation and no other variable. -/
theorem conclude_binds :
    larger.Extends b ∧ ∀ v, larger.Binds v ↔ b.Binds v ∨ atom.result? = some v := by
  have hdraws := conclude_returns_iff.mp h
  cases atom with
  | op op args result =>
    obtain ⟨xs, x, mid, _, _, hlast⟩ := hdraws
    cases hv : b.value result with
    | none =>
      rw [hv] at hlast
      obtain ⟨rfl, _⟩ := hlast
      have hlt : result < b.length := fitting (.op op args result) (by simp) result rfl
      refine ⟨Binding.assign_extends hlt x hv, fun v => ?_⟩
      rw [Binding.assign_binds hlt, Atom.result?, Option.some.injEq, eq_comm]
    | some z =>
      rw [hv] at hlast
      obtain ⟨_, rfl⟩ := hlast
      refine ⟨.refl b, fun v => ⟨Or.inl, fun hb => hb.elim id fun he => ?_⟩⟩
      cases Option.some.inj he
      exact ⟨z, hv⟩
  | pred pred args =>
    obtain ⟨_, _, _, _, rfl⟩ := hdraws
    exact ⟨.refl b, fun v => by simp [Atom.result?]⟩
  | eq lhs rhs =>
    obtain ⟨_, _, _, _, _, rfl⟩ := hdraws
    exact ⟨.refl b, fun v => by simp [Atom.result?]⟩

/-- A conclusion that has been drawn is true, with the value that it introduces if it does. -/
theorem conclude_makes (valid : s.Valid) : t.Makes larger.value atom := by
  have hdraws := conclude_returns_iff.mp h
  cases atom with
  | op op args result =>
    obtain ⟨hext, _⟩ := conclude_binds fitting h
    obtain ⟨xs, x, mid, hreads, hdefine, hlast⟩ := hdraws
    have happ := define_returns valid hdefine
    have valid' := (hdefine.kept (define_keeps op xs) valid).1
    cases hv : b.value result with
    | none =>
      rw [hv] at hlast
      obtain ⟨rfl, rfl⟩ := hlast
      have hlt : result < b.length := fitting (.op op args result) (by simp) result rfl
      refine ⟨xs, x, hext.reads hreads, ?_, happ⟩
      rw [Binding.assign_value hlt, Function.update_self]
    | some z =>
      rw [hv] at hlast
      obtain ⟨hmerge, rfl⟩ := hlast
      have grows := (hmerge.kept (mergeFor_keeps rule z x) valid').2
      have hzx := mergeFor_returns valid' hmerge
      have hxs : List.Forall₂ (fun x y => x = y ∨ t.Equal x y) xs xs :=
        forall₂_of_mem fun _ _ => Or.inl rfl
      exact ⟨xs, z, hreads, hv, (grows.applies happ).agrees hxs (Or.inr hzx.symm)⟩
  | pred pred args =>
    obtain ⟨xs, flag, hreads, hassert, rfl⟩ := hdraws
    exact ⟨xs, hreads, assert_returns valid hassert⟩
  | eq lhs rhs =>
    obtain ⟨x, y, hl, hr, hmerge, rfl⟩ := hdraws
    exact ⟨x, y, hl, hr, mergeFor_returns valid hmerge⟩

end Step

/-- A rule draws conclusions in order: each starts from the binding and the structure that the one
before it has left. -/
inductive Drawn (rule : Rule) : List Atom → Binding → Structure → Binding → Structure → Prop
  | done {b : Binding} {s : Structure} : Drawn rule [] b s b s
  | next {atom : Atom} {atoms : List Atom} {b mid larger : Binding} {s u t : Structure}
      (first : (conclude rule b atom).Returns s mid u) (rest : Drawn rule atoms mid u larger t) :
      Drawn rule (atom :: atoms) b s larger t

theorem concludeAll_returns_iff {rule : Rule} {atoms : List Atom} {b : Binding} {s t : Structure} :
    (concludeAll rule atoms b).Returns s () t ↔ ∃ larger, Drawn rule atoms b s larger t := by
  induction atoms generalizing b s with
  | nil =>
    refine returns_give.trans ⟨fun h => ⟨b, h.2 ▸ .done⟩, ?_⟩
    rintro ⟨_, ⟨⟩⟩
    exact ⟨rfl, rfl⟩
  | cons atom atoms ih =>
    refine returns_andThen.trans ⟨?_, ?_⟩
    · rintro ⟨mid, u, hfirst, hrest⟩
      obtain ⟨larger, hdrawn⟩ := ih.mp hrest
      exact ⟨larger, .next hfirst hdrawn⟩
    · rintro ⟨larger, hdrawn⟩
      cases hdrawn with
      | next first rest => exact ⟨_, _, first, ih.mpr ⟨larger, rest⟩⟩

namespace Drawn

variable {rule : Rule} {atoms : List Atom} {b larger : Binding} {s t : Structure}
  (h : Drawn rule atoms b s larger t)

include h

theorem keeps : Keeps s t := by
  induction h with
  | done => exact .refl _
  | @next _ _ _ _ _ s _ _ first _ ih =>
    exact Keeps.trans _ _ _ (first.2 ▸ conclude_keeps rule _ _ s) ih

/-- A head binds the results of its operations and no other variable. -/
theorem binds (fitting : Fitting atoms b) :
    larger.Extends b ∧ ∀ v, larger.Binds v ↔ b.Binds v ∨ v ∈ atoms.filterMap Atom.result? := by
  induction h with
  | done => exact ⟨.refl _, fun v => by simp⟩
  | @next atom atoms b mid larger s u t first rest ih =>
    obtain ⟨hext, hbinds⟩ := conclude_binds fitting.head first
    obtain ⟨hext', hbinds'⟩ := ih (fitting.tail.of_length hext.length)
    refine ⟨hext'.trans hext, fun v => ?_⟩
    rw [hbinds', hbinds, or_assoc, List.filterMap_cons]
    cases atom.result? with
    | none => simp
    | some result => simp [eq_comm]

/-- After a head has been drawn, each of its atoms is true: what later atoms do to the structure and
the binding does not undo it. -/
theorem makes (valid : s.Valid) (fitting : Fitting atoms b) :
    ∀ atom ∈ atoms, t.Makes larger.value atom := by
  induction h with
  | done => simp
  | @next atom atoms b mid larger s u t first rest ih =>
    have one : Fitting [atom] b := fitting.head
    have fitting' : Fitting atoms mid := fitting.tail.of_length (conclude_binds one first).1.length
    have valid' := (first.kept (conclude_keeps rule b atom) valid).1
    have grows := (rest.keeps valid').2
    have hmakes := conclude_makes one first valid
    intro other ho
    rcases List.mem_cons.mp ho with rfl | ho
    · exact (hmakes.extends (rest.binds fitting').1).mono grows (.refl _ _)
    · exact ih valid' fitting' other ho

end Drawn

end Action

end PartialHorn
