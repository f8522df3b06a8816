import Paraglob.Library.TreeOrder
import Paraglob.Multifast.Automaton
import Paraglob.Multifast.Replace

/-!
# The replacement bookmarks

`ac_trie_finalize` ends with a walk that stores in every node the pattern that is
to be replaced there, and counts the nodes that got one. The nodes of a trie form
a tree, so the walk passes each of them once, and the patterns of a node are listed
from the longest on, so the one that is chosen is the first with a replacement.
-/

namespace Multifast

open LongestSuffix DepthFirst

namespace Mpool

/-- The targets of the edges of a node, in their order. -/
def children (mp : Mpool) (n : Nat) : List Nat := (mp.node n).outgoing.map ActEdge.next

theorem valid_of_child {mp : Mpool} {n m : Nat} (child : m ∈ mp.children n) : n < mp.length := by
  by_contra outside
  have none : mp.node n = nodeInit := by
    simp [node, List.getElem?_eq_none (Nat.le_of_not_lt outside)]
  rw [children, none] at child
  cases child

end Mpool

variable {mp : Mpool} {path : Nat → Bytes} {d : Dictionary} {n m : Nat}

theorem Labelling.child_spec (lab : Labelling mp path) (child : m ∈ mp.children n) :
    n < m ∧ m < mp.length ∧ ∃ alpha, path m = path n ++ [alpha] := by
  obtain ⟨e, he, rfl⟩ := List.mem_map.mp child
  obtain ⟨inside, above, label⟩ := lab.target (Mpool.valid_of_child child) e he
  exact ⟨above, inside, e.alpha, label⟩

theorem Labelling.isTree (lab : Labelling mp path) :
    IsTree mp.children fun n => mp.length - n where
  rank child := by
    obtain ⟨above, inside, _⟩ := lab.child_spec child
    omega
  once n := by
    by_cases valid : n < mp.length
    · apply List.Nodup.map_on
      · intro e he e' he' same
        have label := (lab.target valid e he).2.2
        have label' := (lab.target valid e' he').2.2
        rw [same, label'] at label
        have letter : e'.alpha = e.alpha := by simpa using label
        exact List.inj_on_of_nodup_map (lab.letters valid) he he' letter.symm
      · exact (lab.letters valid).of_map _
    · rw [List.eq_nil_iff_forall_not_mem.mpr fun m child => valid (Mpool.valid_of_child child)]
      exact List.nodup_nil
  parent := by
    intro n n' m child child'
    obtain ⟨_, _, alpha, label⟩ := lab.child_spec child
    obtain ⟨_, _, beta, label'⟩ := lab.child_spec child'
    have same := (List.append_inj' (label.symm.trans label') rfl).1
    exact lab.inj (Mpool.valid_of_child child) (Mpool.valid_of_child child') same

theorem Labelling.reaches_root (lab : Labelling mp path) (valid : n < mp.length) :
    Reaches mp.children 0 n := by
  induction n using Nat.strongRecOn with
  | ind n ih =>
      by_cases root : n = 0
      · exact root ▸ Relation.ReflTransGen.refl
      · obtain ⟨j, hj, e, he, rfl, below, _⟩ := lab.exists_parent valid root
        exact (ih j below hj).tail (List.mem_map_of_mem he)

theorem Labelling.valid_of_reaches (lab : Labelling mp path) (below : Reaches mp.children 0 n) :
    n < mp.length := by
  cases Relation.ReflTransGen.cases_tail below with
  | inl root => exact root ▸ lab.pos
  | inr last =>
      obtain ⟨_, _, child⟩ := last
      exact (lab.child_spec child).2.1

theorem Labelling.preorder_perm (lab : Labelling mp path) :
    (preorder mp.children (mp.length + 1) 0).Perm (List.range mp.length) := by
  have enough : mp.length - 0 < mp.length + 1 := Nat.lt_succ_self _
  apply (List.perm_ext_iff_of_nodup (nodup_preorder lab.isTree enough) List.nodup_range).mpr
  intro n
  rw [mem_preorder lab.isTree enough, List.mem_range]
  exact ⟨lab.valid_of_reaches, lab.reaches_root⟩

theorem Dictionary.pairwise_ending (d : Dictionary) (s : Bytes) :
    (d.ending s).Pairwise fun p q => q.ptext.length < p.ptext.length := by
  induction s with
  | nil =>
      rw [d.ending_nil]
      exact List.Pairwise.nil
  | cons a s ih =>
      rw [d.ending_cons]
      cases found : d.find (a :: s) with
      | none => exact ih
      | some p =>
          refine List.pairwise_cons.mpr ⟨fun q hq => ?_, ih⟩
          have shorter := (d.mem_ending.mp hq).2.length_le
          rw [(d.find_eq_some_iff.mp found).2, List.length_cons]
          omega

/-- The longest entry with a replacement that ends a string. -/
def Dictionary.replaceable (d : Dictionary) (rtext : AcPattern → Option Bytes) (s : Bytes) :
    Option AcPattern := (d.ending s).find? fun q => (rtext q).isSome

variable {rtext : AcPattern → Option Bytes} {q : AcPattern} {s : Bytes}

theorem Dictionary.replaceable_eq_some_iff :
    d.replaceable rtext s = some q ↔
      (q ∈ d.entries ∧ (rtext q).isSome ∧ q.ptext <:+ s) ∧
        ∀ p ∈ d.entries, (rtext p).isSome → p.ptext <:+ s → p.ptext.length ≤ q.ptext.length := by
  have longest : ∀ {q}, d.replaceable rtext s = some q →
      (q ∈ d.entries ∧ (rtext q).isSome ∧ q.ptext <:+ s) ∧
        ∀ p ∈ d.entries, (rtext p).isSome → p.ptext <:+ s → p.ptext.length ≤ q.ptext.length := by
    intro q found
    obtain ⟨replaced, front, back, listed, none⟩ := List.find?_eq_some_iff_append.mp found
    have here : q ∈ d.ending s := listed ▸ List.mem_append_right _ List.mem_cons_self
    obtain ⟨entry, suffix⟩ := d.mem_ending.mp here
    refine ⟨⟨entry, replaced, suffix⟩, fun p hp replaced' suffix' => ?_⟩
    have there : p ∈ front ++ q :: back := listed ▸ d.mem_ending.mpr ⟨hp, suffix'⟩
    have ranked := List.pairwise_append.mp (listed ▸ d.pairwise_ending s)
    cases List.mem_append.mp there with
    | inl early => exact absurd replaced' (by simpa using none p early)
    | inr late =>
        cases List.mem_cons.mp late with
        | inl same => exact Nat.le_of_eq (congrArg (·.ptext.length) same)
        | inr behind => exact Nat.le_of_lt ((List.pairwise_cons.mp ranked.2.1).1 p behind)
  constructor
  · exact longest
  · rintro ⟨⟨entry, replaced, suffix⟩, max⟩
    have some : (d.replaceable rtext s).isSome := by
      rw [replaceable, List.find?_isSome]
      exact ⟨q, d.mem_ending.mpr ⟨entry, suffix⟩, replaced⟩
    obtain ⟨p, found⟩ := Option.isSome_iff_exists.mp some
    obtain ⟨⟨entry', replaced', suffix'⟩, max'⟩ := longest found
    have length := Nat.le_antisymm (max p entry' replaced' suffix') (max' q entry replaced suffix)
    have text := (List.suffix_of_suffix_length_le suffix' suffix (Nat.le_of_eq length)).eq_of_length
      length
    rw [← d.eq_of_ptext_eq entry' entry text]
    exact found

theorem foldl_bookLonger_some {patts : List AcPattern} {l : AcPattern}
    (shorter : ∀ q ∈ patts, q.ptext.length < l.ptext.length) :
    patts.foldl (bookLonger rtext) (some l) = some l := by
  induction patts with
  | nil => rfl
  | cons p patts ih =>
      have kept : bookLonger rtext (some l) p = some l := by
        rw [bookLonger]
        split
        · exact if_neg (Nat.not_lt.mpr (Nat.le_of_lt (shorter p List.mem_cons_self)))
        · rfl
      rw [List.foldl_cons, kept]
      exact ih fun q hq => shorter q (List.mem_cons_of_mem _ hq)

/-- From patterns that are listed from the longest on, the first with a replacement is booked. -/
theorem foldl_bookLonger {patts : List AcPattern}
    (ranked : patts.Pairwise fun p q => q.ptext.length < p.ptext.length) :
    patts.foldl (bookLonger rtext) none = patts.find? fun q => (rtext q).isSome := by
  induction patts with
  | nil => rfl
  | cons p patts ih =>
      obtain ⟨shorter, ranked⟩ := List.pairwise_cons.mp ranked
      rw [List.foldl_cons, List.find?_cons, bookLonger]
      cases replaced : (rtext p).isSome with
      | true => exact foldl_bookLonger_some shorter
      | false => exact ih ranked

/-- On a finalized node the pattern that is booked is the one for the string on its path. -/
theorem Finalized.nodeBookReplacement_eq (fin : Finalized mp path d) (listed : Listed mp path d)
    (valid : n < mp.length) {booked : Option AcPattern}
    (old : booked = none ∨ booked = d.replaceable rtext (path n)) :
    nodeBookReplacement rtext (mp.node n) booked =
      (d.replaceable rtext (path n), if (d.replaceable rtext (path n)).isSome then 1 else 0) := by
  have chosen : (mp.node n).matched.foldl (bookLonger rtext) none =
      d.replaceable rtext (path n) := by
    rw [listed valid]
    exact foldl_bookLonger (d.pairwise_ending _)
  rw [nodeBookReplacement, chosen]
  cases final : (mp.node n).final with
  | true => rfl
  | false =>
      have none : d.replaceable rtext (path n) = none := by
        have empty : ¬ (mp.node n).matched ≠ [] := fun some => by
          rw [(fin.complete valid).matched_ne_nil.mpr some] at final
          cases final
        rw [Dictionary.replaceable, ← listed valid, not_not.mp empty]
        rfl
      rw [none, or_self] at old
      rw [none, old]
      rfl

theorem foldl_visit_spec (visit : Bookmarks × UInt32 → Nat → Bookmarks × UInt32)
    (chosen : Bookmarks) (nodes : List Nat) (once : nodes.Nodup) (s : Bookmarks × UInt32)
    (step : ∀ n ∈ nodes, ∀ s', s'.1 n = s.1 n → visit s' n =
      (Function.update s'.1 n (chosen n), s'.2 + if (chosen n).isSome then 1 else 0)) :
    (∀ m, (nodes.foldl visit s).1 m = if m ∈ nodes then chosen m else s.1 m) ∧
      (nodes.foldl visit s).2 = s.2 + UInt32.ofNat (nodes.countP fun n => (chosen n).isSome) := by
  induction nodes generalizing s with
  | nil => exact ⟨fun _ => rfl, (UInt32.add_zero _).symm⟩
  | cons n nodes ih =>
      obtain ⟨apart, once⟩ := List.nodup_cons.mp once
      have first := step n List.mem_cons_self s rfl
      have other : ∀ m ∈ nodes, (visit s n).1 m = s.1 m := by
        intro m hm
        have ne : m ≠ n := fun same => apart (same ▸ hm)
        rw [first]
        exact Function.update_of_ne ne _ _
      obtain ⟨marks, count⟩ := ih once (visit s n) fun m hm s' same =>
        step m (List.mem_cons_of_mem _ hm) s' (same.trans (other m hm))
      rw [List.foldl_cons]
      constructor
      · intro m
        rw [marks, first]
        by_cases later : m ∈ nodes
        · rw [if_pos later, if_pos (List.mem_cons_of_mem _ later)]
        · rw [if_neg later]
          by_cases here : m = n
          · rw [here, if_pos List.mem_cons_self]
            exact Function.update_self _ _ _
          · rw [if_neg (not_or.mpr ⟨here, later⟩ ∘ List.mem_cons.mp)]
            exact Function.update_of_ne here _ _
      · rw [count, first, List.countP_cons, UInt32.ofNat_add, UInt32.add_assoc,
          UInt32.add_comm (UInt32.ofNat _)]
        cases (chosen n).isSome <;> rfl

/-- The walk of `mf_repdata_bookreplacements` books in every node the pattern for the string on
its path and counts the nodes that have one. -/
theorem Finalized.bookReplacements_spec (fin : Finalized mp path d) (listed : Listed mp path d)
    (rtext : AcPattern → Option Bytes) {bookmarks : Bookmarks}
    (old : ∀ n < mp.length, bookmarks n = none ∨ bookmarks n = d.replaceable rtext (path n)) :
    ∃ booked, bookReplacements rtext mp (mp.length + 1) 0 bookmarks =
        .ok (booked, UInt32.ofNat ((List.range mp.length).countP fun n =>
          (d.replaceable rtext (path n)).isSome)) ∧
      ∀ n < mp.length, booked n = d.replaceable rtext (path n) := by
  have lab := fin.labelling
  have order := lab.preorder_perm
  let visit : Bookmarks × UInt32 → Nat → Bookmarks × UInt32 := fun s n =>
    (Function.update s.1 n (nodeBookReplacement rtext (mp.node n) (s.1 n)).1,
      s.2 + (nodeBookReplacement rtext (mp.node n) (s.1 n)).2)
  have ran : bookReplacements rtext mp (mp.length + 1) 0 bookmarks =
      .ok ((preorder mp.children (mp.length + 1) 0).foldl visit (bookmarks, 0)) := by
    have loop := (bookReplacementsWalk rtext mp).run_eq_foldlM lab.isTree (fun _ _ => rfl)
      (fun _ _ _ => rfl) (show mp.length - 0 < mp.length + 1 from Nat.lt_succ_self _) (bookmarks, 0)
    exact loop.trans List.foldlM_pure
  obtain ⟨marks, count⟩ := foldl_visit_spec visit
    (fun n => d.replaceable rtext (path n)) _ (order.nodup_iff.mpr List.nodup_range)
    (bookmarks, 0) (by
      intro n hn s same
      have valid := List.mem_range.mp (order.mem_iff.mp hn)
      have here := fin.nodeBookReplacement_eq listed valid (old n valid)
      rw [← show s.1 n = bookmarks n from same] at here
      simp only [visit, here])
  refine ⟨_, ran.trans (congrArg Except.ok (Prod.ext rfl ?_)), ?_⟩
  · rw [count, order.countP_eq]
    exact UInt32.zero_add _
  · intro n valid
    exact (marks n).trans (if_pos (order.mem_iff.mpr (List.mem_range.mpr valid)))

end Multifast
