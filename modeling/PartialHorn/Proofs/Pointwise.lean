import Mathlib.Data.List.Forall2
import Mathlib.Data.List.Nodup

namespace PartialHorn

theorem forall₂_trans {α β γ : Type*} {R : α → β → Prop} {S : β → γ → Prop} {T : α → γ → Prop}
    (h : ∀ a b c, R a b → S b c → T a c) {xs : List α} {ys : List β} {zs : List γ}
    (hr : List.Forall₂ R xs ys) (hs : List.Forall₂ S ys zs) : List.Forall₂ T xs zs := by
  induction hr generalizing zs with
  | nil => cases hs; exact .nil
  | cons hab _ ih =>
    cases hs with
    | cons hbc hs => exact .cons (h _ _ _ hab hbc) (ih hs)

theorem forall₂_swap {α β : Type*} {R : α → β → Prop} {S : β → α → Prop}
    (h : ∀ a b, R a b → S b a) {xs : List α} {ys : List β} (hr : List.Forall₂ R xs ys) :
    List.Forall₂ S ys xs :=
  List.Forall₂.flip (hr.imp h)

theorem forall₂_of_mem {α : Type*} {R : α → α → Prop} {xs : List α} (h : ∀ x ∈ xs, R x x) :
    List.Forall₂ R xs xs :=
  List.forall₂_same.mpr h

theorem forall₂_imp_of_mem {α β : Type*} {R S : α → β → Prop} {xs : List α} {ys : List β}
    (hr : List.Forall₂ R xs ys) (h : ∀ x ∈ xs, ∀ y ∈ ys, R x y → S x y) :
    List.Forall₂ S xs ys := by
  induction hr with
  | nil => exact .nil
  | @cons x y xs ys hab _ ih =>
    refine .cons (h x (by simp) y (by simp) hab) (ih ?_)
    exact fun a ha b hb => h a (List.mem_cons_of_mem x ha) b (List.mem_cons_of_mem y hb)

theorem forall₂_right_of_mem {α β : Type*} {R : α → β → Prop} {xs : List α} {ys : List β}
    (hr : List.Forall₂ R xs ys) {x : α} (hx : x ∈ xs) : ∃ y ∈ ys, R x y := by
  induction hr with
  | nil => simp at hx
  | @cons a b xs ys hab _ ih =>
    rcases List.mem_cons.mp hx with rfl | hx
    · exact ⟨b, by simp, hab⟩
    · obtain ⟨y, hy, hxy⟩ := ih hx
      exact ⟨y, List.mem_cons_of_mem b hy, hxy⟩

theorem forall₂_left_of_mem {α β : Type*} {R : α → β → Prop} {xs : List α} {ys : List β}
    (hr : List.Forall₂ R xs ys) {y : β} (hy : y ∈ ys) : ∃ x ∈ xs, R x y :=
  forall₂_right_of_mem (R := fun b a => R a b) (forall₂_swap (fun _ _ h => h) hr) hy

theorem forall₂_exists {α β : Type*} {R : α → β → Prop} {xs : List α}
    (h : ∀ x ∈ xs, ∃ y, R x y) : ∃ ys, List.Forall₂ R xs ys := by
  induction xs with
  | nil => exact ⟨[], .nil⟩
  | cons x xs ih =>
    obtain ⟨y, hy⟩ := h x (by simp)
    obtain ⟨ys, hys⟩ := ih fun a ha => h a (List.mem_cons_of_mem x ha)
    exact ⟨y :: ys, .cons hy hys⟩

theorem forall₂_unique {α β : Type*} {R : α → β → Prop} (h : ∀ a b c, R a b → R a c → b = c)
    {xs : List α} {ys zs : List β} (hy : List.Forall₂ R xs ys) (hz : List.Forall₂ R xs zs) :
    ys = zs := by
  have unique : Relator.RightUnique R := fun a b c hb hc => h a b c hb hc
  exact List.right_unique_forall₂' unique hy hz

theorem forall₂_and {α β : Type*} {R S : α → β → Prop} {xs : List α} {ys : List β}
    (hr : List.Forall₂ R xs ys) (hs : List.Forall₂ S xs ys) :
    List.Forall₂ (fun x y => R x y ∧ S x y) xs ys := by
  induction hr with
  | nil => exact .nil
  | cons hab _ ih =>
    cases hs with
    | cons hab' hs => exact .cons ⟨hab, hab'⟩ (ih hs)

theorem forall₂_getElem? {α β : Type*} {R : α → β → Prop} {xs : List α} {ys : List β}
    (hr : List.Forall₂ R xs ys) {i : Nat} {x : α} (hx : xs[i]? = some x) :
    ∃ y, ys[i]? = some y ∧ R x y := by
  induction hr generalizing i with
  | nil => simp at hx
  | @cons a b xs ys hab _ ih =>
    cases i with
    | zero =>
      cases Option.some.inj hx
      exact ⟨b, rfl, hab⟩
    | succ i => exact ih (by simpa using hx)

theorem forall₂_filterMap_getElem? {α β : Type*} {R : α → β → Prop} {xs : List α} {ys : List β}
    (h : List.Forall₂ R xs ys) (places : List Nat) :
    List.Forall₂ R (places.filterMap (xs[·]?)) (places.filterMap (ys[·]?)) := by
  induction places with
  | nil => exact .nil
  | cons place places ih =>
    cases hx : xs[place]? with
    | none =>
      have hlen := h.length_eq
      have hy : ys[place]? = none := by
        rw [List.getElem?_eq_none_iff] at hx ⊢
        omega
      simpa [hx, hy] using ih
    | some x =>
      obtain ⟨y, hy, hxy⟩ := forall₂_getElem? h hx
      simpa [hx, hy] using ⟨hxy, ih⟩

theorem forall₂_of_getElem? {α β : Type*} {R : α → β → Prop} {xs : List α} {ys : List β}
    (hlen : xs.length = ys.length) (h : ∀ (i : Nat) x y, xs[i]? = some x → ys[i]? = some y → R x y) :
    List.Forall₂ R xs ys := by
  refine List.forall₂_iff_get.mpr ⟨hlen, fun i hx hy => h i _ _ ?_ ?_⟩
  · exact List.getElem?_eq_getElem hx
  · exact List.getElem?_eq_getElem hy

theorem forall₂_map_right {α β : Type*} {R : α → β → Prop} {f : α → β} {xs : List α}
    (h : ∀ x ∈ xs, R x (f x)) : List.Forall₂ R xs (xs.map f) :=
  List.forall₂_map_right_iff.mpr (List.forall₂_same.mpr h)

theorem forall₂_modify {α β : Type*} {R : α → β → Prop} {f : β → β} {xs : List α} {ys : List β}
    (h : List.Forall₂ R xs ys) (hf : ∀ x y, R x y → R x (f y)) (i : Nat) :
    List.Forall₂ R xs (ys.modify i f) := by
  induction h generalizing i with
  | nil =>
    rw [List.modify_nil]
    exact .nil
  | cons hab hrest ih =>
    cases i with
    | zero => exact .cons (hf _ _ hab) hrest
    | succ i => exact .cons hab (ih i)

theorem map_eq_of_forall₂ {α β : Type*} {f : α → β} {xs : List α} {ys : List β}
    (hr : List.Forall₂ (fun x y => f x = y) xs ys) : xs.map f = ys := by
  induction hr with
  | nil => rfl
  | cons hab _ ih => rw [List.map_cons, hab, ih]

theorem map_eq_self_iff {α : Type*} {f : α → α} {xs : List α} :
    xs.map f = xs ↔ ∀ x ∈ xs, f x = x := by
  conv_lhs => rw [← List.map_id xs, List.map_map]
  exact List.map_inj_left

/-- The first position at which a relation between two lists fails, with what they have there. -/
structure FirstApart {α β : Type*} (R : α → β → Prop) (xs : List α) (ys : List β) (i : Nat) (x : α)
    (y : β) : Prop where
  before : List.Forall₂ R (xs.take i) (ys.take i)
  left : xs[i]? = some x
  right : ys[i]? = some y
  apart : ¬R x y

theorem firstApart_cons_iff {α β : Type*} {R : α → β → Prop} {a x : α} {b y : β} {xs : List α}
    {ys : List β} {i : Nat} : FirstApart R (a :: xs) (b :: ys) i x y ↔
      (i = 0 ∧ a = x ∧ b = y ∧ ¬R a b) ∨ R a b ∧ ∃ j, i = j + 1 ∧ FirstApart R xs ys j x y := by
  constructor
  · rintro ⟨before, left, right, apart⟩
    cases i with
    | zero =>
      cases Option.some.inj left
      cases Option.some.inj right
      exact Or.inl ⟨rfl, rfl, rfl, apart⟩
    | succ j =>
      obtain ⟨hab, hrest⟩ := List.forall₂_cons.mp before
      exact Or.inr ⟨hab, j, rfl, hrest, by simpa using left, by simpa using right, apart⟩
  · rintro (⟨rfl, rfl, rfl, apart⟩ | ⟨hab, j, rfl, before, left, right, apart⟩)
    · exact ⟨.nil, rfl, rfl, apart⟩
    · exact ⟨.cons hab before, by simpa using left, by simpa using right, apart⟩

/-- A scan of two lists that goes on while a relation holds stops where it first fails. -/
theorem scan_eq_some_iff {α β γ : Type*} {scan : Nat → List β → List α → Option γ}
    {R : α → β → Prop} {Wrong : Nat → α → β → γ → Prop} (nil : ∀ p, scan p [] [] = none)
    (cons : ∀ p x y xs ys e, scan p (y :: ys) (x :: xs) = some e ↔
      Wrong p x y e ∨ R x y ∧ scan (p + 1) ys xs = some e)
    (apart : ∀ p x y e, Wrong p x y e → ¬R x y) {xs : List α} {ys : List β}
    (h : xs.length = ys.length) (p : Nat) {e : γ} :
    scan p ys xs = some e ↔ ∃ i x y, FirstApart R xs ys i x y ∧ Wrong (p + i) x y e := by
  induction ys generalizing xs p with
  | nil =>
    cases List.length_eq_zero_iff.mp h
    refine iff_of_false (by simp [nil]) ?_
    rintro ⟨i, x, y, first, _⟩
    exact nomatch first.left
  | cons y ys ih =>
    cases xs with
    | nil => simp at h
    | cons x xs =>
      rw [cons, ih (by simpa using h)]
      constructor
      · rintro (wrong | ⟨hxy, i, x', y', first, wrong⟩)
        · exact ⟨0, x, y, firstApart_cons_iff.mpr (Or.inl ⟨rfl, rfl, rfl, apart _ _ _ _ wrong⟩), wrong⟩
        · refine ⟨i + 1, x', y', firstApart_cons_iff.mpr (Or.inr ⟨hxy, i, rfl, first⟩), ?_⟩
          rwa [← Nat.add_assoc, Nat.add_right_comm]
      · rintro ⟨i, x', y', first, wrong⟩
        rcases firstApart_cons_iff.mp first with ⟨rfl, rfl, rfl, _⟩ | ⟨hxy, j, rfl, rest⟩
        · exact Or.inl wrong
        · refine Or.inr ⟨hxy, j, x', y', rest, ?_⟩
          rwa [Nat.add_right_comm, Nat.add_assoc]

/-- A place in a list is its head or a place in the rest. -/
theorem exists_place_cons_iff {α : Type*} {P : List α → α → Prop} {a : α} {xs : List α} :
    (∃ before x after, a :: xs = before ++ x :: after ∧ P before x) ↔
      P [] a ∨ ∃ before x after, xs = before ++ x :: after ∧ P (a :: before) x := by
  constructor
  · rintro ⟨before, x, after, he, h⟩
    cases before with
    | nil =>
      cases he
      exact Or.inl h
    | cons b before =>
      cases he
      exact Or.inr ⟨before, x, after, rfl, h⟩
  · rintro (h | ⟨before, x, after, rfl, h⟩)
    · exact ⟨[], a, xs, rfl, h⟩
    · exact ⟨a :: before, x, after, rfl, h⟩

/-- A property holds of a whole list or fails first at some place. -/
theorem all_or_first {α : Type} (P : α → Prop) [DecidablePred P] (xs : List α) :
    (∀ x ∈ xs, P x) ∨
      ∃ before x after, xs = before ++ x :: after ∧ (∀ y ∈ before, P y) ∧ ¬P x := by
  induction xs with
  | nil => simp
  | cons a xs ih =>
    rw [exists_place_cons_iff, List.forall_mem_cons]
    by_cases ha : P a
    · refine ih.imp (And.intro ha) fun ⟨before, x, after, place, fine, wrong⟩ => Or.inr ?_
      exact ⟨before, x, after, place, List.forall_mem_cons.mpr ⟨ha, fine⟩, wrong⟩
    · exact Or.inr (Or.inl ⟨by simp, ha⟩)

/-- Two lists without repetitions between which two maps undo each other are equally long and have
the same members up to these maps. -/
theorem perm_of_inverse {α β : Type*} {f : α → β} {g : β → α} {xs : List α} {ys : List β}
    (hxs : xs.Nodup) (hys : ys.Nodup) (hgf : ∀ x ∈ xs, g (f x) = x) (hfg : ∀ y ∈ ys, f (g y) = y)
    (hf : ∀ x ∈ xs, f x ∈ ys) (hg : ∀ y ∈ ys, g y ∈ xs) : (xs.map f).Perm ys := by
  have hnodup : (xs.map f).Nodup := by
    refine hxs.map_on fun x hx x' hx' he => ?_
    rw [← hgf x hx, he, hgf x' hx']
  refine (List.perm_ext_iff_of_nodup hnodup hys).mpr fun y => ⟨fun hy => ?_, fun hy => ?_⟩
  · obtain ⟨x, hx, rfl⟩ := List.mem_map.mp hy
    exact hf x hx
  · exact List.mem_map.mpr ⟨g y, hg y hy, hfg y hy⟩

/-- A traversal that may be undefined is defined exactly when it is at each member. -/
theorem mapM_eq_some_iff {α β : Type} {f : α → Option β} {xs : List α} {ys : List β} :
    xs.mapM f = some ys ↔ List.Forall₂ (fun x y => f x = some y) xs ys := by
  induction xs generalizing ys with
  | nil => simp [eq_comm]
  | cons x xs ih =>
    rw [List.forall₂_cons_left_iff, List.mapM_cons]
    constructor
    · intro h
      obtain ⟨y, hy, h⟩ := Option.bind_eq_some_iff.mp h
      obtain ⟨rest, hrest, h⟩ := Option.bind_eq_some_iff.mp h
      exact ⟨y, rest, hy, ih.mp hrest, (Option.some.inj h).symm⟩
    · rintro ⟨y, rest, hy, hrest, rfl⟩
      exact Option.bind_eq_some_iff.mpr ⟨y, hy, Option.bind_eq_some_iff.mpr ⟨rest, ih.mpr hrest, rfl⟩⟩

theorem except_bind_eq_ok {ε α β : Type} {x : Except ε α} {f : α → Except ε β} {b : β} :
    (x >>= f) = .ok b ↔ ∃ a, x = .ok a ∧ f a = .ok b := by
  cases x with
  | error e =>
    refine ⟨fun h => (nomatch h), ?_⟩
    rintro ⟨a, h, _⟩
    exact nomatch h
  | ok a =>
    refine ⟨fun h => ⟨a, rfl, h⟩, ?_⟩
    rintro ⟨c, h, hf⟩
    cases h
    exact hf

theorem except_bind_eq_error {ε α β : Type} {x : Except ε α} {f : α → Except ε β} {e : ε} :
    (x >>= f) = .error e ↔ x = .error e ∨ ∃ a, x = .ok a ∧ f a = .error e := by
  cases x with
  | error e' =>
    refine ⟨fun h => Or.inl (congrArg _ (Except.error.inj h)), ?_⟩
    rintro (h | ⟨a, h, _⟩)
    · exact congrArg _ (Except.error.inj h)
    · exact nomatch h
  | ok a =>
    refine ⟨fun h => Or.inr ⟨a, rfl, h⟩, ?_⟩
    rintro (h | ⟨b, h, hf⟩)
    · exact nomatch h
    · cases h
      exact hf

theorem except_map_eq_error {ε α β : Type} {x : Except ε α} {f : α → β} {e : ε} :
    f <$> x = .error e ↔ x = .error e := by
  cases x with
  | error e' =>
    exact ⟨fun h => congrArg _ (Except.error.inj h), fun h => congrArg _ (Except.error.inj h)⟩
  | ok a => exact iff_of_false nofun nofun

/-- A traversal that may fail succeeds exactly when it does at each member. -/
theorem mapM_eq_ok_iff {ε α β : Type} {f : α → Except ε β} {xs : List α} {ys : List β} :
    xs.mapM f = .ok ys ↔ List.Forall₂ (fun x y => f x = .ok y) xs ys := by
  induction xs generalizing ys with
  | nil =>
    rw [List.mapM_nil, List.forall₂_nil_left_iff]
    exact ⟨fun h => (Except.ok.inj h).symm, fun h => h ▸ rfl⟩
  | cons x xs ih =>
    rw [List.forall₂_cons_left_iff, List.mapM_cons, except_bind_eq_ok]
    constructor
    · rintro ⟨y, hy, h⟩
      obtain ⟨rest, hrest, h⟩ := except_bind_eq_ok.mp h
      exact ⟨y, rest, hy, ih.mp hrest, (Except.ok.inj h).symm⟩
    · rintro ⟨y, rest, hy, hrest, rfl⟩
      exact ⟨y, hy, except_bind_eq_ok.mpr ⟨rest, ih.mpr hrest, rfl⟩⟩

/-- A function fails on a list for the first element on which it fails. -/
theorem mapM_eq_error_of_split {ε α β : Type} {f : α → Except ε β} {before after : List α} {a : α}
    {e : ε} (fine : ∀ x ∈ before, ∃ y, f x = .ok y) (wrong : f a = .error e) :
    (before ++ a :: after).mapM f = .error e := by
  induction before with
  | nil => rw [List.nil_append, List.mapM_cons, except_bind_eq_error]; exact Or.inl wrong
  | cons x before ih =>
    obtain ⟨y, hy⟩ := fine x (by simp)
    rw [List.cons_append, List.mapM_cons, except_bind_eq_error]
    refine Or.inr ⟨y, hy, except_bind_eq_error.mpr (Or.inl (ih fun z hz => ?_))⟩
    exact fine z (List.mem_cons_of_mem x hz)

end PartialHorn
