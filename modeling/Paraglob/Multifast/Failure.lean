import Paraglob.Multifast.Insertion

/-!
# Failure nodes

`ac_trie_set_failure` tries the proper suffixes of the string on the path to a
node, longest first, and takes the first one that is a path of the trie. It reads
that string from the prefix array, which the depth-first traversal keeps equal to
the path of the node it stands on. The file proves that every access to the array
is in range and that every node but the root ends up with the node of its border.
-/

namespace Multifast

open LongestSuffix

/-- The first cells of the prefix array hold the string `s`. -/
structure PrefixBuffer.Holds (buffer : PrefixBuffer) (s : Bytes) : Prop where
  length : buffer.length = acPatternMaxLength
  cells : ∀ (k : Nat) (hk : k < s.length), buffer[k]? = some (some s[k])

namespace PrefixBuffer

theorem Holds.declared : Holds declared [] :=
  ⟨List.length_replicate, fun _ hk => absurd hk (Nat.not_lt_zero _)⟩

theorem Holds.of_append {buffer : PrefixBuffer} {s t : Bytes} (h : buffer.Holds (s ++ t)) :
    buffer.Holds s := by
  refine ⟨h.length, ?_⟩
  intro k hk
  have := h.cells k (by rw [List.length_append]; omega)
  rwa [List.getElem_append_left hk] at this

theorem Holds.read {buffer : PrefixBuffer} {s : Bytes} (h : buffer.Holds s) {k : Nat}
    (hk : k < s.length) : buffer.read k = .ok s[k] := by
  rw [PrefixBuffer.read, h.cells k hk]

theorem Holds.write {buffer : PrefixBuffer} {s : Bytes} (h : buffer.Holds s) (alpha : UInt8)
    (room : s.length < acPatternMaxLength) :
    ∃ buffer' : PrefixBuffer, buffer.write s.length alpha = .ok buffer' ∧
      buffer'.Holds (s ++ [alpha]) := by
  have inside : s.length < buffer.length := h.length ▸ room
  refine ⟨buffer.set s.length (some alpha), by rw [PrefixBuffer.write, if_pos inside], ?_, ?_⟩
  · rw [List.length_set, h.length]
  · intro k hk
    rw [List.length_append, List.length_singleton] at hk
    by_cases last : k = s.length
    · subst last
      rw [List.getElem?_set_self inside, List.getElem_concat_length rfl]
    · have before : k < s.length := by omega
      rw [List.getElem?_set_ne (Ne.symm last), h.cells k before,
        List.getElem_append_left before]

end PrefixBuffer

namespace Mpool

variable {mp : Mpool} {buffer : PrefixBuffer} {depth root n i j : Nat}

theorem suffixNode_of_none {alpha : UInt8} (more : j < depth) (read : buffer.read j = .ok alpha)
    (found : (mp.node n).findNext alpha = none) : mp.suffixNode buffer depth j n = .ok none := by
  rw [suffixNode, if_pos more, read]
  simp only [bind, Except.bind, found]

theorem suffixNode_of_some {alpha : UInt8} {next : Nat} (more : j < depth)
    (read : buffer.read j = .ok alpha) (found : (mp.node n).findNext alpha = some next) :
    mp.suffixNode buffer depth j n = mp.suffixNode buffer depth (j + 1) next := by
  rw [suffixNode, if_pos more, read]
  simp only [bind, Except.bind, found]

theorem failureLoop_of_some (more : i < depth)
    (ran : mp.suffixNode buffer depth i root = .ok (some n)) :
    mp.failureLoop root buffer depth i = .ok (some n) := by
  rw [failureLoop, if_pos more]
  exact bind_of_ok ran _

theorem failureLoop_of_none (more : i < depth)
    (ran : mp.suffixNode buffer depth i root = .ok none) :
    mp.failureLoop root buffer depth i = mp.failureLoop root buffer depth (i + 1) := by
  rw [failureLoop, if_pos more]
  exact bind_of_ok ran _

end Mpool

namespace Labelling

variable {mp : Mpool} {path : Nat → Bytes} {buffer : PrefixBuffer} {s : Bytes}

/-- The inner loop finds the node of `path n ++ s.drop j`, if there is one. -/
theorem suffixNode_spec (lab : Labelling mp path) (holds : buffer.Holds s) {n : Nat}
    (valid : n < mp.length) (j : Nat) :
    ∃ r, mp.suffixNode buffer s.length j n = .ok r ∧
      ∀ m, r = some m ↔ m < mp.length ∧ path m = path n ++ s.drop j := by
  induction remaining : s.length - j generalizing j n with
  | zero =>
      have done : s.length ≤ j := by omega
      rw [Mpool.suffixNode, if_neg (Nat.not_lt_of_le done), List.drop_eq_nil_of_le done,
        List.append_nil]
      refine ⟨some n, rfl, ?_⟩
      intro m
      rw [Option.some.injEq]
      constructor
      · rintro rfl
        exact ⟨valid, rfl⟩
      · rintro ⟨hm, same⟩
        exact (lab.inj hm valid same).symm
  | succ remaining ih =>
      have more : j < s.length := by omega
      have split : path n ++ s.drop j = path n ++ [s[j]] ++ s.drop (j + 1) := by
        rw [List.append_assoc, List.singleton_append, ← List.drop_eq_getElem_cons more]
      have read := holds.read more
      cases found : (mp.node n).findNext s[j] with
      | none =>
          have missing := (lab.findNext_eq_none_iff valid).mp found
          refine ⟨none, Mpool.suffixNode_of_none more read found, ?_⟩
          intro m
          constructor
          · intro h
            cases h
          · rintro ⟨hm, label⟩
            exact absurd (lab.prefixClosed.of_append _ ⟨m, hm, label.trans split⟩) missing
      | some next =>
          obtain ⟨inside, label⟩ := (lab.findNext_eq_some_iff valid).mp found
          obtain ⟨r, ran, spec⟩ := ih inside (j + 1) (by omega)
          refine ⟨r, (Mpool.suffixNode_of_some more read found).trans ran, ?_⟩
          intro m
          rw [spec m, label, split]

/-- The outer loop from `i` finds the longest nonempty suffix of `s.drop i` that is
a path, and nothing when only the empty one is. -/
theorem failureLoop_spec (lab : Labelling mp path) (holds : buffer.Holds s) (i : Nat) :
    ∃ r, mp.failureLoop 0 buffer s.length i = .ok r ∧
      (∀ m, r = some m → m < mp.length ∧ IsLongest (IsPath mp path) (s.drop i) (path m)) ∧
      (r = none → IsLongest (IsPath mp path) (s.drop i) []) := by
  induction remaining : s.length - i generalizing i with
  | zero =>
      have done : s.length ≤ i := by omega
      rw [Mpool.failureLoop, if_neg (Nat.not_lt_of_le done), List.drop_eq_nil_of_le done]
      refine ⟨none, rfl, ?_, fun _ => IsLongest.nil lab.prefixClosed⟩
      intro m h
      cases h
  | succ remaining ih =>
      have more : i < s.length := by omega
      obtain ⟨r, ran, spec⟩ := lab.suffixNode_spec holds lab.pos i
      rw [lab.root, List.nil_append] at spec
      cases r with
      | some n =>
          obtain ⟨inside, label⟩ := (spec n).mp rfl
          refine ⟨some n, Mpool.failureLoop_of_some more ran, ?_, fun h => absurd h (by simp)⟩
          rintro m h
          obtain rfl : n = m := by simpa using h
          have mem : IsPath mp path (s.drop i) := ⟨n, inside, label⟩
          exact ⟨inside, label.symm ▸ IsLongest.of_mem mem⟩
      | none =>
          have out : ¬ IsPath mp path (s[i] :: s.drop (i + 1)) := by
            rw [← List.drop_eq_getElem_cons more]
            rintro ⟨m, hm, label⟩
            exact absurd ((spec m).mpr ⟨hm, label⟩) (by simp)
          obtain ⟨r', ran', some', none'⟩ := ih (i + 1) (by omega)
          rw [List.drop_eq_getElem_cons more]
          refine ⟨r', (Mpool.failureLoop_of_none more ran).trans ran', ?_,
            fun h => (none' h).cons_of_not_mem out⟩
          intro m h
          obtain ⟨inside, longest⟩ := some' m h
          exact ⟨inside, longest.cons_of_not_mem out⟩

end Labelling

/-- The failure node of `i` is the node of the border of its path. -/
def Linked (mp : Mpool) (path : Nat → Bytes) (i : Nat) : Prop :=
  i ≠ 0 ∧ ∃ f < mp.length, (mp.node i).failureNode = some f ∧
    IsBorder (IsPath mp path) (path i) (path f)

/-- A node without its failure link. -/
def ActNode.unlinked (x : ActNode) : ActNode := { x with failureNode := none }

/-- A pool during the traversal: it differs from `mp₀` in failure nodes only, and
those that are set are right. -/
structure Linking (mp₀ mp : Mpool) (path : Nat → Bytes) : Prop where
  labelling : Labelling mp path
  length : mp.length = mp₀.length
  same : ∀ i, (mp.node i).unlinked = (mp₀.node i).unlinked
  link : ∀ {i}, i < mp.length → (mp.node i).failureNode = none ∨ Linked mp path i

namespace Linking

variable {mp₀ mp : Mpool} {path : Nat → Bytes} {buffer : PrefixBuffer} {n f : Nat}

theorem outgoing (h : Linking mp₀ mp path) (i : Nat) :
    (mp.node i).outgoing = (mp₀.node i).outgoing := by
  have edges := congrArg ActNode.outgoing (h.same i)
  exact edges

theorem update (h : Linking mp₀ mp path) (valid : n < mp.length) (ne : n ≠ 0)
    (inside : f < mp.length) (border : IsBorder (IsPath mp path) (path n) (path f))
    {g : ActNode → ActNode} (effect : g (mp.node n) = { mp.node n with failureNode := some f }) :
    Linking mp₀ (mp.update n g) path ∧ Linked (mp.update n g) path n ∧
      ∀ m, Linked mp path m → Linked (mp.update n g) path m := by
  have self : (mp.update n g).node n = { mp.node n with failureNode := some f } := by
    rw [Mpool.node_update_self valid, effect]
  have other : ∀ i, i ≠ n → (mp.update n g).node i = mp.node i :=
    fun i ne => Mpool.node_update_ne ne g
  have paths : IsPath (mp.update n g) path = IsPath mp path := by
    funext s
    simp only [IsPath, Mpool.length_update]
  have here : Linked (mp.update n g) path n :=
    ⟨ne, f, by simpa using inside, by rw [self], by rw [paths]; exact border⟩
  have kept : ∀ m, Linked mp path m → Linked (mp.update n g) path m := by
    rintro m ⟨hm, f', inside', link, border'⟩
    by_cases same : m = n
    · exact same ▸ here
    · exact ⟨hm, f', by simpa using inside', by rw [other m same, link],
        by rw [paths]; exact border'⟩
  refine ⟨⟨?_, by simp [h.length], ?_, ?_⟩, here, kept⟩
  · apply h.labelling.congr (by simp)
    all_goals
      intro i _
      by_cases same : i = n
      · subst same
        rw [self]
      · rw [other i same]
  · intro i
    by_cases same : i = n
    · subst same
      rw [self]
      exact h.same i
    · rw [other i same]
      exact h.same i
  · intro i hi
    rw [Mpool.length_update] at hi
    by_cases same : i = n
    · exact Or.inr (same ▸ here)
    · rw [other i same]
      exact (h.link hi).imp id (kept i)

theorem setFailure_spec (h : Linking mp₀ mp path) (valid : n < mp.length)
    (holds : buffer.Holds (path n)) :
    ∃ mp', Mpool.setFailure 0 n mp buffer = .ok mp' ∧ Linking mp₀ mp' path ∧
      (n = 0 ∨ Linked mp' path n) ∧ ∀ m, Linked mp path m → Linked mp' path m := by
  by_cases root : n = 0
  · exact ⟨mp, by rw [Mpool.setFailure, if_pos root], h, Or.inl root, fun _ linked => linked⟩
  · obtain ⟨r, ran, found, absent⟩ := h.labelling.failureLoop_spec holds 1
    rw [List.drop_one] at found absent
    rw [Mpool.setFailure, if_neg root, h.labelling.depth valid, ran]
    cases r with
    | some m =>
        obtain ⟨inside, border⟩ := found m rfl
        obtain ⟨linking, here, kept⟩ := h.update valid root inside border
          (g := fun x => { x with failureNode := some m }) rfl
        exact ⟨_, rfl, linking, Or.inr here, kept⟩
    | none =>
        have border : IsBorder (IsPath mp path) (path n) (path 0) := by
          rw [h.labelling.root]
          exact absent rfl
        -- A failure node that is already there is right, hence the root as well.
        have effect : (if (mp.node n).failureNode.isNone then
            { mp.node n with failureNode := some 0 } else mp.node n) =
            { mp.node n with failureNode := some 0 } := by
          obtain none | ⟨_, f, inside, link, border'⟩ := h.link valid
          · rw [none]
            rfl
          · obtain rfl := h.labelling.inj inside h.labelling.pos (border'.unique border)
            have keep : mp.node n = { mp.node n with failureNode := some 0 } := by rw [← link]
            rw [link]
            exact keep
        obtain ⟨linking, here, kept⟩ := h.update valid root h.labelling.pos border
          (g := fun x => if x.failureNode.isNone then { x with failureNode := some 0 } else x)
          effect
        exact ⟨_, rfl, linking, Or.inr here, kept⟩

end Linking

/-- Every string on a path fits into the prefix array. -/
def Shallow (mp : Mpool) (path : Nat → Bytes) : Prop :=
  ∀ i, i < mp.length → (path i).length ≤ acPatternMaxLength

theorem setFailureWalk_steps {mp₀ : Mpool} {path : Nat → Bytes} (lab₀ : Labelling mp₀ path)
    (shallow : Shallow mp₀ path) :
    (Mpool.setFailureWalk 0).Steps (fun s => Linking mp₀ s.1 path)
      (fun n s => n < s.1.length ∧ s.2.Holds (path n))
      (fun n s => n = 0 ∨ Linked s.1 path n)
      (fun n e => n < mp₀.length ∧ e ∈ (mp₀.node n).outgoing)
      (fun n => mp₀.length - n) where
  visit := by
    rintro n ⟨mp, buffer⟩ linking ⟨valid, holds⟩
    obtain ⟨mp', ran, linking', here, kept⟩ := linking.setFailure_spec valid holds
    refine ⟨(mp', buffer), ?_, linking', ⟨?_, holds⟩, here, fun m => Or.imp_right (kept m)⟩
    · exact bind_of_ok ran _
    · rw [linking'.length, ← linking.length]
      exact valid
  edges := by
    rintro n ⟨mp, buffer⟩ linking ⟨valid, _⟩ e
    change e ∈ (mp.node n).outgoing ↔ _
    rw [linking.outgoing]
    have valid₀ : n < mp₀.length := linking.length ▸ valid
    exact ⟨fun he => ⟨valid₀, he⟩, fun he => he.2⟩
  follow := by
    rintro n e ⟨mp, buffer⟩ linking ⟨valid, holds⟩ ⟨_, he⟩
    rw [← linking.outgoing] at he
    obtain ⟨inside, _, label⟩ := linking.labelling.target valid e he
    have room : (path n).length < acPatternMaxLength := by
      have := shallow e.next (linking.length ▸ inside)
      rw [label, List.length_append, List.length_singleton] at this
      omega
    obtain ⟨buffer', wrote, holds'⟩ := holds.write e.alpha room
    refine ⟨(mp, buffer'), ?_, linking, ⟨inside, label ▸ holds'⟩, fun _ done => done⟩
    rw [← linking.labelling.depth valid] at wrote
    exact bind_of_ok wrote _
  back := by
    rintro n e ⟨mp, buffer⟩ ⟨valid₀, he⟩ linking ⟨_, holds⟩
    rw [← linking.outgoing] at he
    have valid : n < mp.length := linking.length ▸ valid₀
    obtain ⟨_, _, label⟩ := linking.labelling.target valid e he
    exact ⟨valid, (label ▸ holds : buffer.Holds (path n ++ [e.alpha])).of_append⟩
  rank := by
    rintro n e ⟨valid₀, he⟩
    obtain ⟨inside, below, _⟩ := lab₀.target valid₀ e he
    change mp₀.length - e.next < mp₀.length - n
    omega

end Multifast
