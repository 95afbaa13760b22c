import PartialHorn.Proofs.Presentation
import PartialHorn.Proofs.Confluence

namespace PartialHorn

open PartialHorn.Structure PartialHorn.Action

namespace Structure

/-- Two structures say the same of corresponding elements, and they have as many classes and as many
rows in every table. -/
structure Corresponds (a b : Structure) (results results' : List Nat) : Prop where
  length : results'.length = results.length
  equal : ∀ i j x y x' y' : Nat, results[i]? = some x → results[j]? = some y → results'[i]? = some x' →
    results'[j]? = some y' → (a.Equal x y ↔ b.Equal x' y')
  relates : ∀ pred places xs xs', (image results).Reads places xs →
    (image results').Reads places xs' → (a.Relates pred xs ↔ b.Relates pred xs')
  classCount : a.classCount = b.classCount
  operations : a.operations.map OperationTable.size = b.operations.map OperationTable.size
  predicates : a.predicates.map PredicateTable.size = b.predicates.map PredicateTable.size

theorem Isomorphism.operation_sizes {s a b : Structure} {f : Nat → Nat} (iso : Isomorphism s a b f) :
    a.operations.map OperationTable.size = b.operations.map OperationTable.size := by
  refine map_eq_of_forall₂ (List.forall₂_map_right_iff.mpr (iso.operations.imp ?_))
  intro table table' hperm
  simpa [OperationTable.size] using hperm.length_eq

theorem Isomorphism.predicate_sizes {s a b : Structure} {f : Nat → Nat} (iso : Isomorphism s a b f) :
    a.predicates.map PredicateTable.size = b.predicates.map PredicateTable.size := by
  refine map_eq_of_forall₂ (List.forall₂_map_right_iff.mpr (iso.predicates.imp ?_))
  intro table table' hperm
  simpa [PredicateTable.size] using hperm.length_eq

section Toward

variable {sig : Signature} {a b : Structure} (valid' : b.Valid) (hsig' : b.signature = sig)
  {results results' : List Nat} {p cs : List b.Class} (maps : a.Maps (quotient valid' hsig') p)
  (hp : (image p).Reads results cs) (hroots : (image (roots valid')).Reads results' cs)

include maps hp hroots

/-- A map that takes results to the classes of the corresponding ones carries their equalities over. -/
theorem equal_toward {i j x y x' y' : Nat} (hx : results[i]? = some x) (hy : results[j]? = some y)
    (hx' : results'[i]? = some x') (hy' : results'[j]? = some y') (h : a.Equal x y) :
    b.Equal x' y' := by
  have himages : image (roots valid') x' = image (roots valid') y' := by
    rw [← image_through hroots hx', ← image_through hroots hy', image_through hp hx,
      image_through hp hy]
    exact maps.equal x y h
  have known : ∀ {place z : Nat}, results'[place]? = some z → z < b.size := fun {place z} hz => by
    obtain ⟨c, _, hc⟩ := forall₂_getElem? hroots hz
    have hlt := (List.getElem?_eq_some_iff.mp hc).1
    rwa [roots, List.length_ofFn] at hlt
  rw [image_roots valid' (known hx'), image_roots valid' (known hy')] at himages
  have hroot : b.equality.root x' = b.equality.root y' := congrArg Class.val (Option.some.inj himages)
  exact (valid'.equal_root (known hx')).trans (hroot ▸ (valid'.equal_root (known hy')).symm)

theorem relates_toward {pred : Nat} {places xs xs' : List Nat} (hxs : (image results).Reads places xs)
    (hxs' : (image results').Reads places xs') (h : a.Relates pred xs) : b.Relates pred xs' := by
  obtain ⟨ds, hds, hholds⟩ := maps.relates h
  have hds' : (image (roots valid')).Reads xs' ds :=
    (reads_through hroots hxs').mpr ((reads_through hp hxs).mp hds)
  have known : ∀ x ∈ xs', x < b.size := fun x hx => by
    obtain ⟨c, _, hc⟩ := forall₂_right_of_mem hds' hx
    have hlt := (List.getElem?_eq_some_iff.mp hc).1
    rwa [roots, List.length_ofFn] at hlt
  obtain ⟨es, hes, hvals⟩ := reads_roots valid' known
  cases reads_unique hes hds'
  exact ⟨_, hholds, hvals ▸ valid'.equal_all_root known⟩

end Toward

section Presented

variable {sig : Signature} {a b : Structure} (valid : a.Valid) (valid' : b.Valid)
  (hsig : a.signature = sig) (hsig' : b.signature = sig) {results results' : List Nat}
  {p cs' : List b.Class} {q cs : List a.Class}

/-- If the results tell maps apart, then two maps that take them to the classes of the corresponding
ones undo each other. -/
theorem along_presented {P : List a.Class → Prop} (presents : Presents (quotient valid hsig) a results P)
    (clean : a.dirty = false) (hcs : (image (roots valid)).Reads results cs) (hP : P cs)
    (maps : a.Maps (quotient valid' hsig') p) (hp : (image p).Reads results cs')
    (hcs' : (image (roots valid')).Reads results' cs') (maps' : b.Maps (quotient valid hsig) q)
    (hq : (image q).Reads results' cs) {x : Nat} (hx : x < a.size) :
    along q (along p x) = a.equality.root x := by
  obtain ⟨r, hr, hfollow⟩ := maps.comp valid' hsig' valid maps'
  -- The second map takes the class of a result where it takes the result.
  have hback : List.Forall₂ (fun c d => image q (Class.val c) = some d) cs' cs := by
    refine forall₂_trans (fun c y d hy hd => ?_) (forall₂_swap (fun _ _ h => h) hcs') hq
    have hlt : y < b.size := by
      have hlt := (List.getElem?_eq_some_iff.mp hy).1
      rwa [roots, List.length_ofFn] at hlt
    rw [image_roots valid' hlt] at hy
    cases Option.some.inj hy
    exact (maps'.equal _ _ (valid'.equal_root hlt)).symm.trans hd
  have hread : (image r).Reads results cs := by
    refine forall₂_trans (fun z c d hc hd => ?_) hp hback
    exact (hfollow z c hc).trans hd
  obtain ⟨_, _, hunique⟩ := presents.reaches cs hP
  have he : r = roots valid :=
    (hunique r ⟨hr, hread⟩).trans (hunique _ ⟨roots_maps valid hsig clean, hcs⟩).symm
  exact along_of_comp valid maps (he ▸ hfollow) hx

end Presented

/-- Structures whose maps are presented alike by some results correspond. -/
theorem corresponds_of_presents {sig : Signature} {a b : Structure} (valid : a.Valid)
    (valid' : b.Valid) (clean : a.dirty = false) (clean' : b.dirty = false)
    (hsig : a.signature = sig) (hsig' : b.signature = sig) {results results' : List Nat}
    (hlength : results'.length = results.length) {P : List a.Class → Prop} {P' : List b.Class → Prop}
    (haa : Presents (quotient valid hsig) a results P)
    (hab : Presents (quotient valid' hsig') a results P')
    (hba : Presents (quotient valid hsig) b results' P)
    (hbb : Presents (quotient valid' hsig') b results' P') : a.Corresponds b results results' := by
  obtain ⟨cs, hcs, hP⟩ := haa.lands _ (roots_maps valid hsig clean)
  obtain ⟨cs', hcs', hP'⟩ := hbb.lands _ (roots_maps valid' hsig' clean')
  obtain ⟨p, ⟨maps, hp⟩, _⟩ := hab.reaches cs' hP'
  obtain ⟨q, ⟨maps', hq⟩, _⟩ := hba.reaches cs hP
  have there : Retracts a b (along p) (along q) := maps.retracts valid' hsig' fun x hx =>
    along_presented valid valid' hsig hsig' haa clean hcs hP maps hp hcs' maps' hq hx
  have here : Retracts b a (along q) (along p) := maps'.retracts valid hsig fun y hy =>
    along_presented valid' valid hsig' hsig hbb clean' hcs' hP' maps' hq hcs maps hp hy
  have iso : Isomorphism (empty sig) a b (along p) :=
    there.isomorphism valid here valid' clean clean' (hsig.trans hsig'.symm) fun x hx =>
      absurd hx (Nat.not_lt_zero x)
  refine ⟨hlength, fun i j x y x' y' hx hy hx' hy' => ⟨fun h => ?_, fun h => ?_⟩,
    fun pred places xs xs' hxs hxs' => ⟨fun h => ?_, fun h => ?_⟩, iso.classCount_eq valid valid',
    iso.operation_sizes, iso.predicate_sizes⟩
  · exact equal_toward valid' hsig' maps hp hcs' hx hy hx' hy' h
  · exact equal_toward valid hsig maps' hq hcs hx' hy' hx hy h
  · exact relates_toward valid' hsig' maps hp hcs' hxs hxs' h
  · exact relates_toward valid hsig maps' hq hcs hxs' hxs h

end Structure

section Increments

variable {sig : Signature} {seqs : List Sequent} {rules : List Rule}
  (hrules : Rule.ofSequents sig seqs = .ok rules) {C : Type*} {M : Interpretation sig C}
  (hM : ∀ seq ∈ seqs, M.Satisfies seq) {s t : Structure} {results : List Nat} {P : List C → Prop}

include hrules hM

/-- Rebuilding and closing a structure changes nothing in how its maps are presented. -/
theorem Presents.chased (presents : Presents M s results P) (run : Chased rules s.renewed t) :
    Presents M t results P := by
  have renewed := presents.free (renewed_free presents.valid)
  exact renewed.free (run.free_of_satisfies hrules (fun _ h => h) hM renewed.valid renewed.signature)

/-- In every interpretation where the axioms hold, a script presents the maps in one way, whether or
not its first part is closed before the second one. -/
theorem presents_batch {first second : List Command} {a : Structure}
    (hbatch : (execute (first ++ second) []).Returns (empty sig) results s)
    (run : Chased rules s.renewed a) :
    Presents M a results fun ms => M.FollowsAll (first ++ second) [] ms := by
  have presents := (Presents.empty (M := M)).execute hbatch
  refine (presents.chased hrules hM run).congr fun ms => ?_
  simp

theorem presents_increment {first second : List Command} {early : List Nat} {mid u b : Structure}
    (hfirst : (execute first []).Returns (empty sig) early mid) (between : Chased rules mid.renewed u)
    (hsecond : (execute second early).Returns u results s) (run : Chased rules s.renewed b) :
    Presents M b results fun ms => M.FollowsAll (first ++ second) [] ms := by
  have presents := ((Presents.empty (M := M)).execute hfirst).chased hrules hM between
  refine ((presents.execute hsecond).chased hrules hM run).congr fun ms => ?_
  simp [Interpretation.followsAll_append]

end Increments

/-- Closing a structure while it is built comes to the same as closing it at the end. A script that
succeeds also succeeds when its first part is closed under the rules before the second part, with
whatever budget and however that run ends. If both ways come to the end of the last chase, then the
structures correspond by the results of the script. -/
theorem increments_agree {sig : Signature} {seqs : List Sequent} {rules : List Rule}
    (hrules : Rule.ofSequents sig seqs = .ok rules) {first second : List Command}
    {results : List Nat} {start : Structure}
    (hbatch : (execute (first ++ second) []).Returns (empty sig) results start)
    (budget : Budget) (clock : Clock) (passes : Nat) :
    ∃ early mid results' start',
      (execute first []).Returns (empty sig) early mid ∧
      (execute second early).Returns (saturate rules budget clock passes mid.renewed).after
        results' start' ∧
      ∀ budget₁ clock₁ passes₁ report₁ a budget₂ clock₂ passes₂ report₂ b,
        (saturate rules budget₁ clock₁ passes₁).Returns start.renewed (some report₁) a →
        (saturate rules budget₂ clock₂ passes₂).Returns start'.renewed (some report₂) b →
        a.Corresponds b results results' := by
  have valid := empty_valid sig
  obtain ⟨sorts, hfit, htyped⟩ := execute_fits valid rfl (.nil : (empty sig).Typed [] []) hbatch
  obtain ⟨sorts', hfit₁, hfit₂⟩ := Command.fitAll_append.mp hfit
  obtain ⟨early, mid, hfirst, htyped₁⟩ :=
    execute_progress valid rfl (.nil : (empty sig).Typed [] []) hfit₁
  obtain ⟨hmid, hgrows⟩ := hfirst.kept (execute_keeps first []) valid
  have hrenewed := renewed_valid hmid
  have between : Chased rules mid.renewed (saturate rules budget clock passes mid.renewed).after :=
    .saturate budget clock passes
  obtain ⟨hvalid, hgrows₁⟩ := keeps_lasting.saturate rules budget clock passes mid.renewed hrenewed
  have hgrows₂ := hgrows.trans ((grows_renewed hmid).trans hgrows₁)
  have htyped₂ := ((grows_renewed hmid).trans hgrows₁).typed htyped₁
  obtain ⟨results', start', hsecond, htyped₃⟩ :=
    execute_progress hvalid hgrows₂.signature htyped₂ hfit₂
  refine ⟨early, mid, results', start', hfirst, hsecond, ?_⟩
  intro budget₁ clock₁ passes₁ report₁ a budget₂ clock₂ passes₂ report₂ b ha hb
  obtain ⟨hstart, hgrows₃⟩ := hbatch.kept (execute_keeps (first ++ second) []) valid
  obtain ⟨hstart', hgrows₄⟩ := hsecond.kept (execute_keeps second early) hvalid
  have taken : ∀ rule, rule ∈ rules ↔ rule ∈ rules := fun _ => Iff.rfl
  obtain ⟨valid₁, clean₁, hsig₁, satisfied₁⟩ := saturate_satisfies hrules taken (renewed_valid hstart)
    (renewed_dirty hstart) ((renews_renewed hstart).signature.trans hgrows₃.signature) ha
  obtain ⟨valid₂, clean₂, hsig₂, satisfied₂⟩ := saturate_satisfies hrules taken
    (renewed_valid hstart') (renewed_dirty hstart')
    ((renews_renewed hstart').signature.trans (hgrows₄.signature.trans hgrows₂.signature)) hb
  have hM₁ : ∀ seq ∈ seqs, (quotient valid₁ hsig₁).Satisfies seq := fun seq hseq =>
    quotient_satisfies valid₁ hsig₁ clean₁ (satisfied₁ seq hseq)
  have hM₂ : ∀ seq ∈ seqs, (quotient valid₂ hsig₂).Satisfies seq := fun seq hseq =>
    quotient_satisfies valid₂ hsig₂ clean₂ (satisfied₂ seq hseq)
  have run₁ := Chased.of_returns ha
  have run₂ := Chased.of_returns hb
  have hlength : results'.length = results.length :=
    htyped₃.length_eq.trans htyped.length_eq.symm
  exact corresponds_of_presents valid₁ valid₂ clean₁ clean₂ hsig₁ hsig₂ hlength
    (presents_batch hrules hM₁ hbatch run₁) (presents_batch hrules hM₂ hbatch run₁)
    (presents_increment hrules hM₁ hfirst between hsecond run₂)
    (presents_increment hrules hM₂ hfirst between hsecond run₂)

/-- An element of which the first predicate holds. -/
def imageOpening : List Command :=
  [.add 0, .assert 0 [0]]

/-- Another element and the value of the operation at the first one. -/
def imageEnding : List Command :=
  [.add 0, .define 0 [0]]

/-- The whole script at once. -/
def imageBatch : Structure :=
  (execute (imageOpening ++ imageEnding) [] (empty imageSignature)).after

def imageHalf : Structure :=
  (execute imageOpening [] (empty imageSignature)).after

/-- The first part of the script, with as much of the chase as fits into one pass. -/
def imageStopped : Structure :=
  (saturate [imageRule] { maxPasses := some 1 } (fun _ => 0) 5 imageHalf.renewed).after

def imageResumed : Structure :=
  (execute imageEnding [0] imageStopped).after

/-- The value is the third element if the script defines it, and the second one if the rule does,
for which the budget of a single pass is too small to come to an end. -/
theorem increments_agree_image : ∃ a b,
    (execute (imageOpening ++ imageEnding) []).Returns (empty imageSignature) [0, 1, 2] imageBatch ∧
      (saturate [imageRule] { maxPasses := some 1 } (fun _ => 0) 5 imageHalf.renewed).answer =
        .error (.didNotConverge 1) ∧
      (execute imageEnding [0]).Returns imageStopped [0, 2, 1] imageResumed ∧
      (saturate [imageRule] {} (fun _ => 0) 5).Returns imageBatch.renewed (some ⟨2, 1, 1, 0, 0⟩) a ∧
      (saturate [imageRule] {} (fun _ => 0) 5).Returns imageResumed.renewed (some ⟨1, 1, 0, 0, 0⟩) b ∧
      a.Corresponds b [0, 1, 2] [0, 2, 1] := by
  have compiled : Rule.ofSequents imageSignature [imageSequent] = .ok [imageRule] := rfl
  have batch : (execute (imageOpening ++ imageEnding) []).Returns (empty imageSignature) [0, 1, 2]
      imageBatch := ⟨rfl, rfl⟩
  have opening : (execute imageOpening []).Returns (empty imageSignature) [0] imageHalf := ⟨rfl, rfl⟩
  have ending : (execute imageEnding [0]).Returns imageStopped [0, 2, 1] imageResumed := ⟨rfl, rfl⟩
  have last : (saturate [imageRule] {} (fun _ => 0) 5).Returns imageBatch.renewed
      (some ⟨2, 1, 1, 0, 0⟩) _ := ⟨rfl, rfl⟩
  have last' : (saturate [imageRule] {} (fun _ => 0) 5).Returns imageResumed.renewed
      (some ⟨1, 1, 0, 0, 0⟩) _ := ⟨rfl, rfl⟩
  obtain ⟨early, mid, results', start', hfirst, hsecond, hagree⟩ :=
    increments_agree compiled batch { maxPasses := some 1 } (fun _ => 0) 5
  obtain ⟨rfl, rfl⟩ := hfirst.unique opening
  obtain ⟨rfl, rfl⟩ := hsecond.unique ending
  exact ⟨_, _, batch, rfl, ending, last, last', hagree _ _ _ _ _ _ _ _ _ _ last last'⟩

end PartialHorn
