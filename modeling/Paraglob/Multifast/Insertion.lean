import Paraglob.Multifast.Dictionary
import Paraglob.Multifast.Labelling

/-!
# Adding a pattern

Adding a pattern walks down the trie along its letters and creates what is
missing. The walk only ever appends nodes and edges, so it keeps every existing
label; the node it ends in is labelled with the pattern. An open trie is faithful
to a dictionary when its final nodes are exactly those labelled with an accepted
search text and each holds just that pattern. The main result is that
`ac_trie_add` on such a trie does what `Dictionary.insert` says.
-/

namespace Multifast

open LongestSuffix

/-- The pool after the edge `alpha` out of `n` was found missing and created. -/
def Mpool.grow (mp : Mpool) (n : Nat) (alpha : UInt8) : Mpool :=
  ((mp ++ [nodeInit]).nodeAddEdge n mp.length alpha).update mp.length fun x =>
    { x with depth := (mp.node n).depth + 1 }

/-- Give the label `s` to one node. -/
def relabel (path : Nat → Bytes) (n : Nat) (s : Bytes) : Nat → Bytes :=
  fun i => if i = n then s else path i

theorem relabel_ne {path : Nat → Bytes} {n i : Nat} (ne : i ≠ n) (s : Bytes) :
    relabel path n s i = path i := if_neg ne

theorem relabel_self (path : Nat → Bytes) (n : Nat) (s : Bytes) : relabel path n s n = s :=
  if_pos rfl

/-- A larger pool that keeps the labels and the acceptance data of all nodes, and
whose new nodes accept nothing. -/
structure Grown (mp : Mpool) (path : Nat → Bytes) (mp' : Mpool) (path' : Nat → Bytes) :
    Prop where
  length : mp.length ≤ mp'.length
  label : ∀ i, i < mp.length → path' i = path i
  final : ∀ i, i < mp.length → (mp'.node i).final = (mp.node i).final
  matched : ∀ i, i < mp.length → (mp'.node i).matched = (mp.node i).matched
  failure : ∀ i, i < mp.length → (mp'.node i).failureNode = (mp.node i).failureNode
  fresh : ∀ i, mp.length ≤ i → i < mp'.length →
    (mp'.node i).final = false ∧ (mp'.node i).matched = [] ∧ (mp'.node i).failureNode = none

namespace Grown

variable {mp mp₁ mp₂ : Mpool} {path path₁ path₂ : Nat → Bytes}

theorem refl (mp : Mpool) (path : Nat → Bytes) : Grown mp path mp path :=
  ⟨Nat.le_refl _, fun _ _ => rfl, fun _ _ => rfl, fun _ _ => rfl, fun _ _ => rfl,
    fun _ old new => absurd new (Nat.not_lt_of_le old)⟩

theorem trans (h₁ : Grown mp path mp₁ path₁) (h₂ : Grown mp₁ path₁ mp₂ path₂) :
    Grown mp path mp₂ path₂ where
  length := Nat.le_trans h₁.length h₂.length
  label i hi := (h₂.label i (Nat.lt_of_lt_of_le hi h₁.length)).trans (h₁.label i hi)
  final i hi := (h₂.final i (Nat.lt_of_lt_of_le hi h₁.length)).trans (h₁.final i hi)
  matched i hi := (h₂.matched i (Nat.lt_of_lt_of_le hi h₁.length)).trans (h₁.matched i hi)
  failure i hi := (h₂.failure i (Nat.lt_of_lt_of_le hi h₁.length)).trans (h₁.failure i hi)
  fresh i old new := by
    obtain middle | late := Nat.lt_or_ge i mp₁.length
    · rw [h₂.final i middle, h₂.matched i middle, h₂.failure i middle]
      exact h₁.fresh i old middle
    · exact h₂.fresh i late new

theorem isPath (h : Grown mp path mp₁ path₁) {s : Bytes} (hs : IsPath mp path s) :
    IsPath mp₁ path₁ s := by
  obtain ⟨i, hi, rfl⟩ := hs
  exact ⟨i, Nat.lt_of_lt_of_le hi h.length, h.label i hi⟩

end Grown

namespace Mpool

variable {mp : Mpool} {path : Nat → Bytes} {n : Nat} {alpha : UInt8}

@[simp] theorem length_grow : (mp.grow n alpha).length = mp.length + 1 := by
  simp [grow, nodeAddEdge]

theorem node_append_of_lt {i : Nat} (valid : i < mp.length) (x : ActNode) :
    node (mp ++ [x]) i = mp.node i := by
  simp [node, List.getElem?_append_left valid]

theorem node_append_length (x : ActNode) : node (mp ++ [x]) mp.length = x := by
  simp [node]

theorem node_grow_parent (valid : n < mp.length) :
    (mp.grow n alpha).node n =
      { mp.node n with outgoing := (mp.node n).outgoing ++ [⟨alpha, mp.length⟩] } := by
  rw [grow, node_update_ne (Nat.ne_of_lt valid), nodeAddEdge,
    node_update_self (by rw [List.length_append]; omega), node_append_of_lt valid]

theorem node_grow_old {i : Nat} (valid : i < mp.length) (ne : i ≠ n) :
    (mp.grow n alpha).node i = mp.node i := by
  rw [grow, node_update_ne (Nat.ne_of_lt valid), nodeAddEdge, node_update_ne ne,
    node_append_of_lt valid]

theorem node_grow_new (valid : n < mp.length) :
    (mp.grow n alpha).node mp.length = { nodeInit with depth := (mp.node n).depth + 1 } := by
  rw [grow, node_update_self (by simp [nodeAddEdge]), nodeAddEdge,
    node_update_ne (Nat.ne_of_gt valid), node_append_length]

theorem grow_cases {i : Nat} (valid : n < mp.length) (hi : i < (mp.grow n alpha).length) :
    (i = n ∧ (mp.grow n alpha).node i =
        { mp.node n with outgoing := (mp.node n).outgoing ++ [⟨alpha, mp.length⟩] }) ∨
      (i < mp.length ∧ i ≠ n ∧ (mp.grow n alpha).node i = mp.node i) ∨
      i = mp.length ∧
        (mp.grow n alpha).node i = { nodeInit with depth := (mp.node n).depth + 1 } := by
  rw [length_grow] at hi
  by_cases parent : i = n
  · subst parent
    exact Or.inl ⟨rfl, node_grow_parent valid⟩
  · by_cases old : i < mp.length
    · exact Or.inr (Or.inl ⟨old, parent, node_grow_old old parent⟩)
    · obtain rfl : i = mp.length := by omega
      exact Or.inr (Or.inr ⟨rfl, node_grow_new valid⟩)

theorem mem_outgoing_grow {i : Nat} (valid : n < mp.length) (hi : i < mp.length + 1)
    (e : ActEdge) : e ∈ ((mp.grow n alpha).node i).outgoing ↔
      i < mp.length ∧ (e ∈ (mp.node i).outgoing ∨ i = n ∧ e = ⟨alpha, mp.length⟩) := by
  by_cases new : i = mp.length
  · subst new
    rw [node_grow_new valid]
    simp [nodeInit]
  · have old : i < mp.length := by omega
    by_cases parent : i = n
    · subst parent
      rw [node_grow_parent old]
      simp [old]
    · rw [node_grow_old old parent]
      simp [old, parent]

end Mpool

namespace Labelling

variable {mp : Mpool} {path : Nat → Bytes} {n : Nat} {alpha : UInt8}

/-- The labels after growing: the new node continues the path of its parent. -/
abbrev grownPath (mp : Mpool) (path : Nat → Bytes) (n : Nat) (alpha : UInt8) : Nat → Bytes :=
  relabel path mp.length (path n ++ [alpha])

theorem grownPath_old {i : Nat} (old : i < mp.length) : grownPath mp path n alpha i = path i :=
  relabel_ne (Nat.ne_of_lt old) _

theorem grownPath_new : grownPath mp path n alpha mp.length = path n ++ [alpha] :=
  relabel_self path mp.length _

theorem grow_target (lab : Labelling mp path) (valid : n < mp.length) {i : Nat}
    (hi : i < (mp.grow n alpha).length) {e : ActEdge}
    (he : e ∈ ((mp.grow n alpha).node i).outgoing) :
    e.next < (mp.grow n alpha).length ∧ i < e.next ∧
      grownPath mp path n alpha e.next = grownPath mp path n alpha i ++ [e.alpha] := by
  rw [Mpool.length_grow] at hi ⊢
  obtain ⟨old, here | ⟨rfl, rfl⟩⟩ := (Mpool.mem_outgoing_grow valid hi e).mp he
  · obtain ⟨inside, below, label⟩ := lab.target old e here
    rw [grownPath_old old, grownPath_old inside]
    exact ⟨by omega, below, label⟩
  · rw [grownPath_old old, grownPath_new]
    exact ⟨Nat.lt_succ_self mp.length, old, rfl⟩

theorem grow_parent (lab : Labelling mp path) (valid : n < mp.length) {i : Nat}
    (hi : i < (mp.grow n alpha).length) (ne : i ≠ 0) :
    ∃ j < (mp.grow n alpha).length, ∃ e ∈ ((mp.grow n alpha).node j).outgoing, e.next = i := by
  rw [Mpool.length_grow] at hi ⊢
  by_cases old : i < mp.length
  · obtain ⟨j, hj, e, he, next⟩ := lab.parent old ne
    exact ⟨j, by omega, e,
      (Mpool.mem_outgoing_grow valid (by omega) e).mpr ⟨hj, Or.inl he⟩, next⟩
  · obtain rfl : i = mp.length := by omega
    exact ⟨n, by omega, ⟨alpha, mp.length⟩,
      (Mpool.mem_outgoing_grow valid (by omega) _).mpr ⟨valid, Or.inr ⟨rfl, rfl⟩⟩, rfl⟩

theorem grow_inj (lab : Labelling mp path) (missing : ¬ IsPath mp path (path n ++ [alpha]))
    {i j : Nat} (hi : i < mp.length + 1) (hj : j < mp.length + 1)
    (same : grownPath mp path n alpha i = grownPath mp path n alpha j) : i = j := by
  have cases : ∀ i, i < mp.length + 1 → i < mp.length ∨ i = mp.length := by omega
  rcases cases i hi with hi | rfl <;> rcases cases j hj with hj | rfl
  · rw [grownPath_old hi, grownPath_old hj] at same
    exact lab.inj hi hj same
  · rw [grownPath_old hi, grownPath_new] at same
    exact absurd ⟨i, hi, same⟩ missing
  · rw [grownPath_new, grownPath_old hj] at same
    exact absurd ⟨j, hj, same.symm⟩ missing
  · rfl

theorem grow_letters (lab : Labelling mp path) (valid : n < mp.length)
    (missing : ¬ IsPath mp path (path n ++ [alpha])) {i : Nat}
    (hi : i < (mp.grow n alpha).length) :
    (((mp.grow n alpha).node i).outgoing.map ActEdge.alpha).Nodup := by
  obtain ⟨rfl, node⟩ | ⟨old, _, node⟩ | ⟨rfl, node⟩ := Mpool.grow_cases valid hi
  · have absent : ∀ e ∈ (mp.node i).outgoing, e.alpha ≠ alpha :=
      ActNode.findNext_eq_none_iff.mp ((lab.findNext_eq_none_iff valid).mpr missing)
    rw [node, List.map_append, List.nodup_append]
    refine ⟨lab.letters valid, by simp, ?_⟩
    rintro a ha b hb rfl
    obtain ⟨e, he, rfl⟩ := List.mem_map.mp ha
    exact absent e he (by simpa using hb)
  · rw [node]
    exact lab.letters old
  · rw [node]
    simp [nodeInit]

theorem grow_depth (lab : Labelling mp path) (valid : n < mp.length) {i : Nat}
    (hi : i < (mp.grow n alpha).length) :
    ((mp.grow n alpha).node i).depth = (grownPath mp path n alpha i).length := by
  obtain ⟨rfl, node⟩ | ⟨old, _, node⟩ | ⟨rfl, node⟩ := Mpool.grow_cases valid hi
  · rw [node, grownPath_old valid]
    exact lab.depth valid
  · rw [node, grownPath_old old]
    exact lab.depth old
  · rw [node, grownPath_new, List.length_append, ← lab.depth valid]
    rfl

theorem grow (lab : Labelling mp path) (valid : n < mp.length)
    (missing : ¬ IsPath mp path (path n ++ [alpha])) :
    Labelling (mp.grow n alpha) (grownPath mp path n alpha) where
  pos := by simp
  root := (grownPath_old lab.pos).trans lab.root
  target hi _ he := lab.grow_target valid hi he
  parent hi ne := lab.grow_parent valid hi ne
  inj hi hj same := lab.grow_inj missing (Mpool.length_grow ▸ hi) (Mpool.length_grow ▸ hj) same
  letters hi := lab.grow_letters valid missing hi
  depth hi := lab.grow_depth valid hi

/-- Creating an edge changes nothing about the old nodes but an edge of the parent. -/
theorem grown (path : Nat → Bytes) (valid : n < mp.length) (alpha : UInt8) :
    Grown mp path (mp.grow n alpha) (grownPath mp path n alpha) := by
  have kept : ∀ i, i < mp.length →
      ((mp.grow n alpha).node i).final = (mp.node i).final ∧
      ((mp.grow n alpha).node i).matched = (mp.node i).matched ∧
      ((mp.grow n alpha).node i).failureNode = (mp.node i).failureNode := by
    intro i hi
    have hi' : i < (mp.grow n alpha).length := Mpool.length_grow ▸ Nat.lt_succ_of_lt hi
    obtain ⟨rfl, node⟩ | ⟨_, _, node⟩ | ⟨rfl, _⟩ := Mpool.grow_cases valid hi'
    · rw [node]
      exact ⟨rfl, rfl, rfl⟩
    · rw [node]
      exact ⟨rfl, rfl, rfl⟩
    · exact absurd hi (Nat.lt_irrefl _)
  refine ⟨by simp, fun i hi => grownPath_old hi, fun i hi => (kept i hi).1,
    fun i hi => (kept i hi).2.1, fun i hi => (kept i hi).2.2, ?_⟩
  intro i old new
  rw [Mpool.length_grow] at new
  obtain rfl : i = mp.length := by omega
  rw [Mpool.node_grow_new valid]
  exact ⟨rfl, rfl, rfl⟩

end Labelling

namespace Mpool

variable {mp : Mpool} {path : Nat → Bytes} {n : Nat}

theorem addPath_of_some {next : Nat} {alpha : UInt8} (rest : Bytes)
    (found : (mp.node n).findNext alpha = some next) :
    mp.addPath n (alpha :: rest) = mp.addPath next rest := by
  rw [addPath, found]

theorem addPath_of_none {alpha : UInt8} (rest : Bytes)
    (missing : (mp.node n).findNext alpha = none) :
    mp.addPath n (alpha :: rest) = (mp.grow n alpha).addPath mp.length rest := by
  rw [addPath, missing]
  simp only [nodeCreateNext, missing, Option.isSome_none, Bool.false_eq_true, if_false,
    nodeCreate]
  rfl

/-- Following a string down from `n` ends in a node labelled with it. Whatever had
to be created lies on the way. -/
theorem addPath_spec (lab : Labelling mp path) (valid : n < mp.length) (rest : Bytes) :
    ∃ path', Labelling (mp.addPath n rest).1 path' ∧
      Grown mp path (mp.addPath n rest).1 path' ∧
      (mp.addPath n rest).2 < (mp.addPath n rest).1.length ∧
      path' (mp.addPath n rest).2 = path n ++ rest ∧
      ∀ i, mp.length ≤ i → i < (mp.addPath n rest).1.length → path' i <+: path n ++ rest := by
  induction rest generalizing mp path n with
  | nil =>
      refine ⟨path, lab, Grown.refl mp path, valid, (List.append_nil _).symm, ?_⟩
      intro i old new
      exact absurd new (Nat.not_lt_of_le old)
  | cons alpha rest ih =>
      cases found : (mp.node n).findNext alpha with
      | some next =>
          obtain ⟨inside, label⟩ := (lab.findNext_eq_some_iff valid).mp found
          rw [addPath_of_some rest found]
          simpa [label] using ih lab inside
      | none =>
          have missing := (lab.findNext_eq_none_iff valid).mp found
          have grown₁ := Labelling.grown path valid alpha
          have inside : mp.length < (mp.grow n alpha).length := by simp
          obtain ⟨path', lab', grown', last, label, fresh⟩ := ih (lab.grow valid missing) inside
          have split : path n ++ alpha :: rest = path n ++ [alpha] ++ rest := by simp
          rw [addPath_of_none rest found, split]
          rw [Labelling.grownPath_new] at label fresh
          refine ⟨path', lab', grown₁.trans grown', last, label, ?_⟩
          intro i old new
          -- The node created here carries a prefix; the later ones come from the recursion.
          by_cases created : i = mp.length
          · subst created
            rw [grown'.label _ inside, Labelling.grownPath_new]
            exact List.prefix_append _ _
          · exact fresh i (by rw [length_grow]; omega) new

theorem addPath_of_isPath (lab : Labelling mp path) (valid : n < mp.length) (rest : Bytes)
    (present : IsPath mp path (path n ++ rest)) : (mp.addPath n rest).1 = mp := by
  induction rest generalizing n with
  | nil => rfl
  | cons alpha rest ih =>
      have split : path n ++ alpha :: rest = path n ++ [alpha] ++ rest := by simp
      have next : IsPath mp path (path n ++ [alpha]) :=
        lab.prefixClosed.of_append rest (split ▸ present)
      obtain ⟨j, hj, label⟩ := next
      rw [addPath_of_some rest ((lab.findNext_eq_some_iff valid).mpr ⟨hj, label⟩)]
      exact ih hj (by rw [label, ← split]; exact present)

end Mpool

/-- A pool of an open trie that has accepted the entries of `d`. -/
structure Raw (mp : Mpool) (path : Nat → Bytes) (d : Dictionary) : Prop where
  labelling : Labelling mp path
  shallow : ∀ {i}, i < mp.length → (path i).length ≤ acPatternMaxLength
  present : ∀ q ∈ d.entries, IsPath mp path q.ptext
  final : ∀ {i}, i < mp.length → ((mp.node i).final = true ↔ d.Has (path i))
  matched : ∀ {i}, i < mp.length →
    (mp.node i).matched = d.entries.filter fun q => q.ptext = path i
  failure : ∀ {i}, i < mp.length → (mp.node i).failureNode = none

namespace Raw

variable {mp mp' : Mpool} {path path' : Nat → Bytes} {d : Dictionary}

theorem create : Raw [nodeInit] (fun _ => []) .empty where
  labelling := by
    constructor
    · simp
    · rfl
    · intro i hi e he
      obtain rfl : i = 0 := by simpa using hi
      simp [Mpool.node, nodeInit] at he
    · intro i hi ne
      exact absurd (by simpa using hi) ne
    · intro i j hi hj _
      simp only [List.length_singleton] at hi hj
      omega
    · intro i hi
      obtain rfl : i = 0 := by simpa using hi
      simp [Mpool.node, nodeInit]
    · intro i hi
      obtain rfl : i = 0 := by simpa using hi
      simp [Mpool.node, nodeInit]
  shallow _ := Nat.zero_le _
  present := by simp [Dictionary.empty]
  final := by
    intro i hi
    obtain rfl : i = 0 := by simpa using hi
    simp [Mpool.node, nodeInit, Dictionary.Has, Dictionary.empty]
  matched := by
    intro i hi
    obtain rfl : i = 0 := by simpa using hi
    simp [Mpool.node, nodeInit, Dictionary.empty]
  failure := by
    intro i hi
    obtain rfl : i = 0 := by simpa using hi
    simp [Mpool.node, nodeInit]

private theorem not_has_fresh (raw : Raw mp path d) (lab' : Labelling mp' path')
    (grown : Grown mp path mp' path') {i : Nat} (old : mp.length ≤ i) (new : i < mp'.length) :
    ∀ q ∈ d.entries, q.ptext ≠ path' i := by
  intro q hq same
  obtain ⟨j, hj, label⟩ := raw.present q hq
  have : j = i := lab'.inj (Nat.lt_of_lt_of_le hj grown.length) new
    ((grown.label j hj).trans (label.trans same))
  omega

/-- Growing the pool by shallow nodes keeps it faithful to the same dictionary. -/
theorem grow (raw : Raw mp path d) (lab' : Labelling mp' path')
    (grown : Grown mp path mp' path')
    (shallow : ∀ i, mp.length ≤ i → i < mp'.length → (path' i).length ≤ acPatternMaxLength) :
    Raw mp' path' d where
  labelling := lab'
  shallow := by
    intro i hi
    obtain old | fresh := Nat.lt_or_ge i mp.length
    · rw [grown.label i old]
      exact raw.shallow old
    · exact shallow i fresh hi
  present q hq := grown.isPath (raw.present q hq)
  final := by
    intro i hi
    obtain old | fresh := Nat.lt_or_ge i mp.length
    · rw [grown.final i old, grown.label i old]
      exact raw.final old
    · rw [(grown.fresh i fresh hi).1]
      constructor
      · intro h
        exact absurd h (by simp)
      · rintro ⟨q, hq, same⟩
        exact absurd same (raw.not_has_fresh lab' grown fresh hi q hq)
  matched := by
    intro i hi
    obtain old | fresh := Nat.lt_or_ge i mp.length
    · rw [grown.matched i old, grown.label i old]
      exact raw.matched old
    · rw [(grown.fresh i fresh hi).2.1, eq_comm, List.filter_eq_nil_iff]
      intro q hq
      simpa using raw.not_has_fresh lab' grown fresh hi q hq
  failure := by
    intro i hi
    obtain old | fresh := Nat.lt_or_ge i mp.length
    · rw [grown.failure i old]
      exact raw.failure old
    · exact (grown.fresh i fresh hi).2.2

section Accepting

variable {d' : Dictionary} {n : Nat} {patt : AcPattern}

theorem node_accept (raw : Raw mp path d) (valid : n < mp.length) (label : path n = patt.ptext)
    (unknown : ¬ d.Has patt.ptext) :
    (mp.update n fun x => { x with final := true }.acceptPattern patt).node n =
      { mp.node n with final := true, matched := [patt] } := by
  have noMatch : (mp.node n).matched = [] := by
    rw [raw.matched valid, List.filter_eq_nil_iff]
    intro q hq same
    exact unknown ⟨q, hq, (of_decide_eq_true same).trans label⟩
  rw [Mpool.node_update_self valid]
  simp [ActNode.acceptPattern, ActNode.hasPattern, noMatch]

theorem accept (raw : Raw mp path d) (valid : n < mp.length) (label : path n = patt.ptext)
    (unknown : ¬ d.Has patt.ptext) (entries : d'.entries = d.entries ++ [patt]) :
    Raw (mp.update n fun x => { x with final := true }.acceptPattern patt) path d' := by
  have self := raw.node_accept valid label unknown
  have other : ∀ i, i ≠ n →
      (mp.update n fun x => { x with final := true }.acceptPattern patt).node i = mp.node i :=
    fun i ne => Mpool.node_update_ne ne _
  have apart : ∀ {i}, i < mp.length → i ≠ n → patt.ptext ≠ path i := by
    intro i hi ne same
    exact ne (raw.labelling.inj hi valid (same.symm.trans label.symm))
  have none : ∀ q ∈ d.entries, q.ptext ≠ patt.ptext := fun q hq same => unknown ⟨q, hq, same⟩
  exact {
    labelling := by
      apply raw.labelling.congr (by simp)
      all_goals
        intro i hi
        by_cases same : i = n
        · subst same
          rw [self]
        · rw [other i same]
    shallow := fun hi => raw.shallow (by simpa using hi)
    present := by
      intro q hq
      rw [entries] at hq
      obtain hq | hq := List.mem_append.mp hq
      · obtain ⟨i, hi, same⟩ := raw.present q hq
        exact ⟨i, by simpa using hi, same⟩
      · rw [List.mem_singleton.mp hq, ← label]
        exact ⟨n, by simpa using valid, rfl⟩
    final := by
      intro i hi
      rw [Mpool.length_update] at hi
      by_cases same : i = n
      · subst same
        rw [self]
        exact iff_of_true rfl ⟨patt, by simp [entries], label.symm⟩
      · rw [other i same, raw.final hi]
        simp [Dictionary.Has, entries, or_and_right, exists_or, apart hi same]
    matched := by
      intro i hi
      rw [Mpool.length_update] at hi
      rw [entries, List.filter_append]
      by_cases same : i = n
      · subst same
        rw [self, label, List.filter_eq_nil_iff.mpr (by simpa using none)]
        simp
      · rw [other i same, raw.matched hi]
        simp [apart hi same]
    failure := by
      intro i hi
      rw [Mpool.length_update] at hi
      by_cases same : i = n
      · subst same
        rw [self]
        exact raw.failure hi
      · rw [other i same]
        exact raw.failure hi }

end Accepting

end Raw

end Multifast
