import PartialHorn.Proofs.Scripts
import PartialHorn.Proofs.Universality

namespace PartialHorn

open PartialHorn.Structure PartialHorn.Action

namespace Interpretation

variable {sig : Signature} {C : Type*}

/-- What a call of a script means in an interpretation, for the elements to which the results of the
earlier calls go and those to which the results go then. -/
def Follows (M : Interpretation sig C) (ms ms' : List C) : Command → Prop
  | .add sort => ∃ m, M.sort m = sort ∧ ms' = ms ++ [m]
  | .define op args => ∃ ys m, (image ms).Reads args ys ∧ M.apply op ys = some m ∧ ms' = ms ++ [m]
  | .assert pred args => (∃ ys, (image ms).Reads args ys ∧ M.holds pred ys) ∧ ms' = ms
  | .merge x y => image ms x = image ms y ∧ ms' = ms

def FollowsAll (M : Interpretation sig C) : List Command → List C → List C → Prop
  | [], ms, ms' => ms' = ms
  | command :: commands, ms, ms' => ∃ mid, M.Follows ms mid command ∧ M.FollowsAll commands mid ms'

/-- The elements to which the earlier results go can be read off those to which all of them go. -/
theorem Follows.unique {M : Interpretation sig C} {command : Command} {ms₁ ms₂ ms' : List C}
    (h : M.Follows ms₁ ms' command) (h' : M.Follows ms₂ ms' command) : ms₁ = ms₂ := by
  cases command with
  | add sort =>
    obtain ⟨m₁, _, he₁⟩ := h
    obtain ⟨m₂, _, he₂⟩ := h'
    exact List.append_inj_left' (he₁.symm.trans he₂) rfl
  | define op args =>
    obtain ⟨_, m₁, _, _, he₁⟩ := h
    obtain ⟨_, m₂, _, _, he₂⟩ := h'
    exact List.append_inj_left' (he₁.symm.trans he₂) rfl
  | assert pred args => exact h.2.symm.trans h'.2
  | merge x y => exact h.2.symm.trans h'.2

theorem followsAll_append {M : Interpretation sig C} {first second : List Command} {ms ms' : List C} :
    M.FollowsAll (first ++ second) ms ms' ↔
      ∃ mid, M.FollowsAll first ms mid ∧ M.FollowsAll second mid ms' := by
  induction first generalizing ms with
  | nil => simp [FollowsAll]
  | cons command first ih =>
    simp only [List.cons_append, FollowsAll, ih]
    constructor
    · intro ⟨mid, hfollows, last, hfirst, hsecond⟩
      exact ⟨last, ⟨mid, hfollows, hfirst⟩, hsecond⟩
    · intro ⟨last, ⟨mid, hfollows, hfirst⟩, hsecond⟩
      exact ⟨mid, hfollows, last, hfirst, hsecond⟩

end Interpretation

/-- The maps of a structure into an interpretation are told apart by where some elements go, and
these can go exactly to the elements that have a property. -/
structure Presents {sig : Signature} {C : Type*} (M : Interpretation sig C) (s : Structure)
    (results : List Nat) (P : List C → Prop) : Prop where
  valid : s.Valid
  signature : s.signature = sig
  known : ∀ x ∈ results, x < s.size
  lands : ∀ h, s.Maps M h → ∃ ms, (image h).Reads results ms ∧ P ms
  reaches : ∀ ms, P ms → ∃! h, s.Maps M h ∧ (image h).Reads results ms

namespace Presents

variable {sig : Signature} {C : Type*} {M : Interpretation sig C} {s t : Structure}
  {results results' : List Nat} {P Q : List C → Prop}

theorem empty : Presents M (Structure.empty sig) [] (· = []) where
  valid := empty_valid sig
  signature := rfl
  known := by simp
  lands h _ := ⟨[], .nil, rfl⟩
  reaches ms hms := by
    subst hms
    have valid := empty_valid sig
    refine ⟨[], ⟨⟨rfl, fun x y he => ?_, fun op row hrow => ?_, fun pred tuple ht => ?_⟩, .nil⟩, ?_⟩
    · exact absurd (valid.lt_size he) (Nat.not_lt_zero x)
    · exact absurd (valid.row_lt hrow).2 (Nat.not_lt_zero _)
    · obtain ⟨table, htable, htuple⟩ := ht
      obtain ⟨predicate, _, rfl⟩ := List.mem_map.mp (List.mem_of_getElem? htable)
      simp [PredicateTable.rows] at htuple
    · exact fun h hmaps => List.length_eq_zero_iff.mp hmaps.1.length

theorem congr (presents : Presents M s results P) (h : ∀ ms, P ms ↔ Q ms) :
    Presents M s results Q := by
  obtain rfl : P = Q := funext fun ms => propext (h ms)
  exact presents

variable (presents : Presents M s results P)

include presents

/-- A map of a structure that has grown takes the old elements where its restriction does. -/
theorem restrict (grows : s.Grows t) {h : List C} (maps : t.Maps M h) :
    ∃ ms, s.Maps M (h.take s.size) ∧ (image (h.take s.size)).Reads results ms ∧
      (image h).Reads results ms ∧ P ms := by
  have hrestrict := maps.restrict presents.valid grows
  obtain ⟨ms, hreads, hP⟩ := presents.lands _ hrestrict
  exact ⟨ms, hrestrict, hreads, hreads.imp fun _ _ => image_of_take, hP⟩

/-- Free growth changes nothing in how the maps are presented. -/
theorem free (free : Free M s t) : Presents M t results P where
  valid := free.valid
  signature := free.grows.signature.trans presents.signature
  known x hx := Nat.lt_of_lt_of_le (presents.known x hx) free.grows.size
  lands h maps := by
    obtain ⟨ms, _, _, hreads, hP⟩ := presents.restrict free.grows maps
    exact ⟨ms, hreads, hP⟩
  reaches ms hP := by
    obtain ⟨h, ⟨maps, hreads⟩, hunique⟩ := presents.reaches ms hP
    obtain ⟨h', ⟨hfirst, maps'⟩, hunique'⟩ := free.extends_unique h maps
    have hreads' : (image h').Reads results ms := by
      obtain ⟨rest, rfl⟩ := hfirst
      exact reads_append hreads rest
    refine ⟨h', ⟨maps', hreads'⟩, fun g ⟨hmaps, hg⟩ => ?_⟩
    have hrestrict := hmaps.restrict presents.valid free.grows
    have he := hunique _ ⟨hrestrict, reads_take presents.known hg⟩
    exact hunique' g ⟨he ▸ List.take_prefix _ _, hmaps⟩

/-- A step whose new elements are results presents the maps by what it means for the results. -/
theorem step (valid : t.Valid) (grows : s.Grows t) (known : ∀ x ∈ results', x < t.size)
    (covered : ∀ x < t.size, x < s.size ∨ x ∈ results') {F : List C → List C → Prop}
    (unique : ∀ ms₁ ms₂ ms', F ms₁ ms' → F ms₂ ms' → ms₁ = ms₂)
    (sound : ∀ h, t.Maps M h → ∀ ms, (image h).Reads results ms →
      ∃ ms', (image h).Reads results' ms' ∧ F ms ms')
    (complete : ∀ h, s.Maps M h → ∀ ms ms', (image h).Reads results ms → F ms ms' →
      ∃ h', t.Maps M h' ∧ (image h').Reads results' ms') :
    Presents M t results' fun ms' => ∃ ms, P ms ∧ F ms ms' where
  valid := valid
  signature := grows.signature.trans presents.signature
  known := known
  lands h maps := by
    obtain ⟨ms, _, _, hreads, hP⟩ := presents.restrict grows maps
    obtain ⟨ms', hreads', hF⟩ := sound h maps ms hreads
    exact ⟨ms', hreads', ms, hP, hF⟩
  reaches ms' := by
    intro ⟨ms, hP, hF⟩
    obtain ⟨h, ⟨maps, hreads⟩, hunique⟩ := presents.reaches ms hP
    -- Whatever map reads the results so restricts to the one map that reads the earlier ones so.
    have restricts : ∀ g, t.Maps M g → (image g).Reads results' ms' → g.take s.size = h := by
      intro g hmaps hg
      obtain ⟨ms₁, hrestrict, hread₁, hreads₁, _⟩ := presents.restrict grows hmaps
      obtain ⟨ms₂, hreads₂, hF₂⟩ := sound g hmaps ms₁ hreads₁
      cases reads_unique hreads₂ hg
      exact hunique _ ⟨hrestrict, unique _ _ _ hF₂ hF ▸ hread₁⟩
    obtain ⟨h', maps', hreads'⟩ := complete h maps ms ms' hreads hF
    refine ⟨h', ⟨maps', hreads'⟩, fun g ⟨hmaps, hg⟩ => List.ext_getElem? fun x => ?_⟩
    by_cases hx : x < t.size
    · rcases covered x hx with hx | hx
      · have he := (restricts g hmaps hg).trans (restricts h' maps' hreads').symm
        calc g[x]? = (g.take s.size)[x]? := (List.getElem?_take_of_lt hx).symm
          _ = (h'.take s.size)[x]? := by rw [he]
          _ = h'[x]? := List.getElem?_take_of_lt hx
      · obtain ⟨m, _, hm, hm'⟩ := forall₂_right_of_mem (forall₂_and hg hreads') hx
        exact hm.trans hm'.symm
    · have hlen := hmaps.length
      have hlen' := maps'.length
      rw [List.getElem?_eq_none (by omega), List.getElem?_eq_none (by omega)]

omit presents in
theorem reads_snoc {h ms : List C} {x : Nat} {m : C} (hreads : (image h).Reads results ms)
    (hm : image h x = some m) : (image h).Reads (results ++ [x]) (ms ++ [m]) :=
  List.rel_append hreads (.cons hm .nil)

theorem known_snoc (grows : s.Grows t) {x : Nat} (hx : x < t.size) :
    ∀ y ∈ results ++ [x], y < t.size := by
  intro y hy
  rcases List.mem_append.mp hy with hy | hy
  · exact Nat.lt_of_lt_of_le (presents.known y hy) grows.size
  · exact List.mem_singleton.mp hy ▸ hx

theorem added {sort x : Nat} (h : (add sort).Returns s x t) :
    Presents M t (results ++ [x]) fun ms' => ∃ ms, P ms ∧ M.Follows ms ms' (.add sort) := by
  have valid := presents.valid
  obtain ⟨valid', grows⟩ := h.kept (add_keeps sort) valid
  rcases add_cases valid sort with ⟨_, hno⟩ | ⟨_, hyes⟩
  · exact absurd h hno.not_returns
  obtain ⟨rfl, rfl⟩ := h.unique hyes
  have hsize : (s.extended sort).size = s.size + 1 := extended_size sort
  have hlast : s.size < (s.extended sort).size := by omega
  refine presents.step valid' grows (presents.known_snoc grows hlast) (fun y hy => ?_)
    (fun _ _ _ h₁ h₂ => h₁.unique h₂) (fun f maps ms hms => ?_) (fun f maps ms ms' hms hfollows => ?_)
  · have hcases : y < s.size ∨ y = s.size := by omega
    exact hcases.imp id fun he => by simp [he]
  · obtain ⟨m, hm⟩ := maps.image_some hlast
    have hsort : M.sort m = sort :=
      Option.some.inj ((maps.sort hm).symm.trans (extended_sort_size sort))
    exact ⟨ms ++ [m], reads_snoc hms hm, m, hsort, rfl⟩
  · obtain ⟨m, hm, rfl⟩ := hfollows
    have hlast : image (f ++ [m]) s.size = some m := by
      rw [image, ← maps.length]
      exact List.getElem?_concat_length
    exact ⟨f ++ [m], extended_maps maps valid hm, reads_snoc (reads_append hms [m]) hlast⟩

theorem defined {op x : Nat} {places xs : List Nat} (hxs : (image results).Reads places xs)
    (h : (define op xs).Returns s x t) :
    Presents M t (results ++ [x]) fun ms' => ∃ ms, P ms ∧ M.Follows ms ms' (.define op places) := by
  have valid := presents.valid
  obtain ⟨valid', grows⟩ := h.kept (define_keeps op xs) valid
  have happlies := define_returns valid h
  have hx : x < t.size := by
    obtain ⟨_, _, _, hx⟩ := happlies
    exact valid'.lt_size hx
  refine presents.step valid' grows (presents.known_snoc grows hx) (fun y hy => ?_)
    (fun _ _ _ h₁ h₂ => h₁.unique h₂) (fun f maps ms hms => ?_) (fun f maps ms ms' hms hfollows => ?_)
  · have hcases := define_covers valid h hy
    exact hcases.imp id fun he => by simp [he]
  · obtain ⟨ys, y, hys, hy, hvalue⟩ := maps.applies happlies
    exact ⟨ms ++ [y], reads_snoc hms hy, ys, y, (reads_through hms hxs).mp hys, hvalue, rfl⟩
  · obtain ⟨ys, y, hys, hvalue, rfl⟩ := hfollows
    have hys := (reads_through hms hxs).mpr hys
    obtain ⟨f', ⟨rest, rfl⟩, maps'⟩ := define_maps valid presents.signature h maps hys hvalue
    obtain ⟨zs, z, hzs, hz, hvalue'⟩ := maps'.applies happlies
    cases reads_unique hzs (reads_append hys rest)
    cases Option.some.inj (hvalue.symm.trans hvalue')
    exact ⟨_, maps', reads_snoc (reads_append hms rest) hz⟩

theorem asserted {pred : Nat} {flag : Bool} {places xs : List Nat}
    (hxs : (image results).Reads places xs) (h : (assert pred xs).Returns s flag t) :
    Presents M t results fun ms' => ∃ ms, P ms ∧ M.Follows ms ms' (.assert pred places) := by
  have valid := presents.valid
  obtain ⟨valid', grows⟩ := h.kept (assert_keeps pred xs) valid
  have hsize : t.size = s.size := assert_size valid h
  refine presents.step valid' grows (fun y hy => hsize ▸ presents.known y hy)
    (fun y hy => Or.inl (hsize ▸ hy)) (fun _ _ _ h₁ h₂ => h₁.unique h₂)
    (fun f maps ms hms => ?_) (fun f maps ms ms' hms hfollows => ?_)
  · obtain ⟨ys, hys, hholds⟩ := maps.relates (assert_returns valid h)
    exact ⟨ms, hms, ⟨ys, (reads_through hms hxs).mp hys, hholds⟩, rfl⟩
  · obtain ⟨⟨ys, hys, hholds⟩, rfl⟩ := hfollows
    exact ⟨f, assert_maps valid h maps ((reads_through hms hxs).mpr hys) hholds, hms⟩

theorem merged {x y a b : Nat} {flag : Bool} (ha : image results x = some a)
    (hb : image results y = some b) (h : (merge a b).Returns s flag t) :
    Presents M t results fun ms' => ∃ ms, P ms ∧ M.Follows ms ms' (.merge x y) := by
  have valid := presents.valid
  obtain ⟨valid', grows⟩ := h.kept (merge_keeps a b) valid
  have hsize : t.size = s.size := merge_size valid h
  have himages : ∀ f ms : List C, (image f).Reads results ms →
      (image f a = image f b ↔ image ms x = image ms y) := fun f ms hms => by
    rw [image_through hms ha, image_through hms hb]
  refine presents.step valid' grows (fun y hy => hsize ▸ presents.known y hy)
    (fun y hy => Or.inl (hsize ▸ hy)) (fun _ _ _ h₁ h₂ => h₁.unique h₂)
    (fun f maps ms hms => ?_) (fun f maps ms ms' hms hfollows => ?_)
  · have hequal := maps.equal a b (merge_returns valid h)
    exact ⟨ms, hms, (himages f ms hms).mp hequal, rfl⟩
  · obtain ⟨he, rfl⟩ := hfollows
    exact ⟨f, merge_maps valid h maps ((himages f _ hms).mpr he), hms⟩

/-- A call of a script presents the maps by what it means for the results. -/
theorem issue {command : Command} (h : (issue results command).Returns s results' t) :
    Presents M t results' fun ms' => ∃ ms, P ms ∧ M.Follows ms ms' command := by
  have hmakes := issue_returns_iff.mp h
  cases command with
  | add sort =>
    obtain ⟨x, hadd, rfl⟩ := hmakes
    exact presents.added hadd
  | define op places =>
    obtain ⟨xs, x, hxs, hdefine, rfl⟩ := hmakes
    exact presents.defined hxs hdefine
  | assert pred places =>
    obtain ⟨xs, flag, hxs, hassert, rfl⟩ := hmakes
    exact presents.asserted hxs hassert
  | merge x y =>
    obtain ⟨a, b, flag, ha, hb, hmerge, rfl⟩ := hmakes
    exact presents.merged ha hb hmerge

/-- A script presents the maps by what its calls mean one after the other. -/
theorem execute {commands : List Command} (h : (execute commands results).Returns s results' t) :
    Presents M t results' fun ms' => ∃ ms, P ms ∧ M.FollowsAll commands ms ms' := by
  induction commands generalizing s results P with
  | nil =>
    obtain ⟨rfl, rfl⟩ := returns_give.mp h
    refine presents.congr fun ms => ⟨fun hP => ⟨ms, hP, rfl⟩, fun ⟨_, hP, he⟩ => he ▸ hP⟩
  | cons command commands ih =>
    obtain ⟨more, u, hissue, hrest⟩ := returns_andThen.mp h
    refine (ih (presents.issue hissue) hrest).congr fun ms' => ?_
    constructor
    · intro ⟨mid, ⟨ms, hP, hfollows⟩, hall⟩
      exact ⟨ms, hP, mid, hfollows, hall⟩
    · intro ⟨ms, hP, mid, hfollows, hall⟩
      exact ⟨mid, ⟨ms, hP, hfollows⟩, hall⟩

end Presents

end PartialHorn
