import Paraglob.Library.LongestSuffix
import Paraglob.Multifast.Trie

/-!
# Nodes and the strings on their paths

The pool of a trie is an array of nodes linked by edges. This file says when it
is a tree: every node can be labelled with the string on its path from the root
so that an edge appends its letter, every node but the root has a parent, and no
two nodes share a label. Linear search over the edges of a node then decides
which strings are paths, and every later statement about the trie is a statement
about labels.
-/

namespace Multifast

open LongestSuffix

namespace ActNode

theorem findNext_eq_some {nod : ActNode} {alpha : UInt8} {next : Nat}
    (h : nod.findNext alpha = some next) :
    ∃ e ∈ nod.outgoing, e.alpha = alpha ∧ e.next = next := by
  obtain ⟨e, found, rfl⟩ := Option.map_eq_some_iff.mp h
  refine ⟨e, List.mem_of_find?_eq_some found, ?_, rfl⟩
  simpa using List.find?_some found

theorem findNext_eq_none_iff {nod : ActNode} {alpha : UInt8} :
    nod.findNext alpha = none ↔ ∀ e ∈ nod.outgoing, e.alpha ≠ alpha := by
  simp [findNext]

theorem findNext_of_mem {nod : ActNode} {e : ActEdge}
    (distinct : (nod.outgoing.map ActEdge.alpha).Nodup) (he : e ∈ nod.outgoing) :
    nod.findNext e.alpha = some e.next := by
  cases found : nod.findNext e.alpha with
  | none => exact absurd rfl (findNext_eq_none_iff.mp found e he)
  | some next =>
      obtain ⟨e', he', same, rfl⟩ := findNext_eq_some found
      rw [List.inj_on_of_nodup_map distinct he' he same]

end ActNode

/-- `path` labels every node of the pool with the string on its path. -/
structure Labelling (mp : Mpool) (path : Nat → Bytes) : Prop where
  pos : 0 < mp.length
  root : path 0 = []
  target : ∀ {i}, i < mp.length → ∀ e ∈ (mp.node i).outgoing,
    e.next < mp.length ∧ i < e.next ∧ path e.next = path i ++ [e.alpha]
  parent : ∀ {i}, i < mp.length → i ≠ 0 →
    ∃ j < mp.length, ∃ e ∈ (mp.node j).outgoing, e.next = i
  inj : ∀ {i j}, i < mp.length → j < mp.length → path i = path j → i = j
  letters : ∀ {i}, i < mp.length → ((mp.node i).outgoing.map ActEdge.alpha).Nodup
  depth : ∀ {i}, i < mp.length → (mp.node i).depth = (path i).length

/-- The strings spelled by the paths of the trie. -/
def IsPath (mp : Mpool) (path : Nat → Bytes) (s : Bytes) : Prop :=
  ∃ i < mp.length, path i = s

namespace Labelling

variable {mp : Mpool} {path : Nat → Bytes} {i j : Nat} {alpha : UInt8}

theorem isPath (valid : i < mp.length) : IsPath mp path (path i) := ⟨i, valid, rfl⟩

theorem path_ne_nil (lab : Labelling mp path) (valid : i < mp.length) (ne : i ≠ 0) :
    path i ≠ [] := by
  intro empty
  exact ne (lab.inj valid lab.pos (empty.trans lab.root.symm))

/-- A node with an edge labels: the parent's label is the label without its last letter. -/
theorem exists_parent (lab : Labelling mp path) (valid : i < mp.length) (ne : i ≠ 0) :
    ∃ j < mp.length, ∃ e ∈ (mp.node j).outgoing,
      e.next = i ∧ j < i ∧ path i = path j ++ [e.alpha] := by
  obtain ⟨j, hj, e, he, rfl⟩ := lab.parent valid ne
  obtain ⟨_, below, label⟩ := lab.target hj e he
  exact ⟨j, hj, e, he, rfl, below, label⟩

theorem prefixClosed (lab : Labelling mp path) : PrefixClosed (IsPath mp path) := by
  refine ⟨⟨0, lab.pos, lab.root⟩, ?_⟩
  rintro s a ⟨i, hi, label⟩
  have ne : i ≠ 0 := by
    rintro rfl
    rw [lab.root] at label
    exact absurd label.symm (by simp)
  obtain ⟨j, hj, e, _, _, _, parent⟩ := lab.exists_parent hi ne
  rw [label] at parent
  exact ⟨j, hj, (List.append_inj' parent rfl).1.symm⟩

theorem findNext_eq_some_iff (lab : Labelling mp path) (valid : i < mp.length) :
    (mp.node i).findNext alpha = some j ↔ j < mp.length ∧ path j = path i ++ [alpha] := by
  constructor
  · intro found
    obtain ⟨e, he, rfl, rfl⟩ := ActNode.findNext_eq_some found
    obtain ⟨hj, _, label⟩ := lab.target valid e he
    exact ⟨hj, label⟩
  · rintro ⟨hj, label⟩
    have ne : j ≠ 0 := by
      rintro rfl
      rw [lab.root] at label
      exact absurd label (by simp)
    obtain ⟨k, hk, e, he, rfl, _, parent⟩ := lab.exists_parent hj ne
    obtain ⟨same, letter⟩ := List.append_inj' (parent.symm.trans label) rfl
    obtain rfl := lab.inj hk valid same
    obtain rfl : e.alpha = alpha := by simpa using letter
    exact ActNode.findNext_of_mem (lab.letters valid) he

theorem findNext_eq_none_iff (lab : Labelling mp path) (valid : i < mp.length) :
    (mp.node i).findNext alpha = none ↔ ¬ IsPath mp path (path i ++ [alpha]) := by
  rw [Option.eq_none_iff_forall_ne_some]
  constructor
  · rintro none ⟨j, hj, label⟩
    exact none j ((lab.findNext_eq_some_iff valid).mpr ⟨hj, label⟩)
  · rintro none j found
    obtain ⟨hj, label⟩ := (lab.findNext_eq_some_iff valid).mp found
    exact none ⟨j, hj, label⟩

/-- Changing anything but depths, and reordering edges, keeps the labelling. -/
theorem congr {mp' : Mpool} (lab : Labelling mp path) (length : mp'.length = mp.length)
    (depth : ∀ i, i < mp.length → (mp'.node i).depth = (mp.node i).depth)
    (edges : ∀ i, i < mp.length → (mp'.node i).outgoing.Perm (mp.node i).outgoing) :
    Labelling mp' path where
  pos := length ▸ lab.pos
  root := lab.root
  target := by
    intro i hi e he
    rw [length] at hi ⊢
    exact lab.target hi e ((edges i hi).mem_iff.mp he)
  parent := by
    intro i hi ne
    rw [length] at hi
    obtain ⟨j, hj, e, he, next⟩ := lab.parent hi ne
    exact ⟨j, length ▸ hj, e, (edges j hj).mem_iff.mpr he, next⟩
  inj := by
    intro i j hi hj
    rw [length] at hi hj
    exact lab.inj hi hj
  letters := by
    intro i hi
    rw [length] at hi
    exact ((edges i hi).map ActEdge.alpha).nodup_iff.mpr (lab.letters hi)
  depth := by
    intro i hi
    rw [length] at hi
    rw [depth i hi, lab.depth hi]

theorem path_length_le (lab : Labelling mp path) (valid : i < mp.length) :
    (path i).length ≤ i := by
  induction i using Nat.strongRecOn with
  | ind i ih =>
      by_cases zero : i = 0
      · subst zero
        rw [lab.root]
        exact Nat.le_refl 0
      · obtain ⟨j, hj, e, _, _, below, label⟩ := lab.exists_parent valid zero
        have := ih j below hj
        rw [label, List.length_append, List.length_singleton]
        omega

end Labelling

/-- Edges in strictly increasing order of their letters as signed values. -/
def EdgesSorted (es : List ActEdge) : Prop :=
  es.Pairwise fun l r => l.alpha.signed < r.alpha.signed

namespace ActNode

theorem outgoing_length_le {nod : ActNode} (distinct : (nod.outgoing.map ActEdge.alpha).Nodup) :
    nod.outgoing.length ≤ 256 := by
  have codes : ((nod.outgoing.map ActEdge.alpha).map UInt8.toNat).Nodup :=
    distinct.map fun _ _ => UInt8.toNat_inj.mp
  have inRange : ((nod.outgoing.map ActEdge.alpha).map UInt8.toNat) ⊆ List.range 256 := by
    intro n hn
    obtain ⟨a, _, rfl⟩ := List.mem_map.mp hn
    exact List.mem_range.mpr a.toNat_lt
  simpa using (List.subperm_of_subset codes inRange).length_le

/-- The loop of the binary search, between bounds that leave out only edges whose
letters are known to be too small or too large. -/
private theorem findNextBsLoop_eq {nod : ActNode} {alpha : UInt8}
    (sorted : EdgesSorted nod.outgoing) (distinct : (nod.outgoing.map ActEdge.alpha).Nodup)
    (fuel : Nat) (min max : Int) (hmin : 0 ≤ min) (hmax : max < nod.outgoing.length)
    (gap : min ≤ max + 1) (enough : max - min + 1 < fuel)
    (low : ∀ (i : Nat) (hi : i < nod.outgoing.length), (i : Int) < min →
      nod.outgoing[i].alpha.signed < alpha.signed)
    (high : ∀ (i : Nat) (hi : i < nod.outgoing.length), max < (i : Int) →
      alpha.signed < nod.outgoing[i].alpha.signed) :
    nod.findNextBsLoop alpha fuel min max = .ok (nod.findNext alpha) := by
  induction fuel generalizing min max with
  | zero => omega
  | succ fuel ih =>
      rw [findNextBsLoop]
      by_cases proper : min ≤ max
      · obtain ⟨mid, hmid⟩ : ∃ mid : Nat, (mid : Int) = (min + max) >>> (1 : Nat) :=
          ⟨((min + max) >>> (1 : Nat)).toNat, Int.toNat_of_nonneg (by
            rw [Int.shiftRight_eq_div_pow]
            omega)⟩
        have half : (mid : Int) = (min + max) / 2 := by
          rw [hmid, Int.shiftRight_eq_div_pow]
          rfl
        have inside : mid < nod.outgoing.length := by omega
        have ordered := List.pairwise_iff_getElem.mp sorted
        rw [if_pos proper, ← hmid, Int.toNat_natCast]
        simp only [List.getElem?_eq_getElem inside]
        by_cases above : alpha.signed > nod.outgoing[mid].alpha.signed
        · rw [if_pos above]
          refine ih (mid + 1) max (by omega) hmax (by omega) (by omega) ?_ high
          intro i hi below
          by_cases same : i = mid
          · subst same
            exact above
          · exact (ordered i mid hi inside (by omega)).trans above
        · rw [if_neg above]
          by_cases under : alpha.signed < nod.outgoing[mid].alpha.signed
          · rw [if_pos under]
            apply ih min (mid - 1) hmin (by omega) (by omega) (by omega) low
            intro i hi beyond
            by_cases same : i = mid
            · subst same
              exact under
            · exact under.trans (ordered mid i inside hi (by omega))
          · rw [if_neg under]
            have letter : nod.outgoing[mid].alpha = alpha := UInt8.signed_inj.mp (by omega)
            rw [← letter, findNext_of_mem distinct (List.getElem_mem inside)]
      · rw [if_neg proper, findNext_eq_none_iff.mpr]
        intro e he same
        obtain ⟨i, hi, rfl⟩ := List.mem_iff_getElem.mp he
        obtain below | beyond := Int.lt_or_le i min
        · exact absurd (low i hi below) (by rw [same]; exact Int.lt_irrefl _)
        · exact absurd (high i hi (by omega)) (by rw [same]; exact Int.lt_irrefl _)

/-- Over sorted edges with distinct letters the binary search probes no index
outside the array and finds what the linear search finds. -/
theorem findNextBs_eq {nod : ActNode} (sorted : EdgesSorted nod.outgoing)
    (distinct : (nod.outgoing.map ActEdge.alpha).Nodup) (alpha : UInt8) :
    nod.findNextBs alpha = .ok (nod.findNext alpha) := by
  have few := outgoing_length_le distinct
  have bound : toInt (nod.outgoing.length - 1) = nod.outgoing.length - 1 := by
    rw [toInt, Int.bmod_eq_of_le] <;> omega
  rw [findNextBs, bound]
  apply findNextBsLoop_eq sorted distinct _ _ _ (by omega) (by omega) (by omega) (by omega)
  · intro i _ negative
    omega
  · intro i hi beyond
    omega

end ActNode

end Multifast
