import Mathlib.Logic.Relation
import Mathlib.Tactic.TypeStar

/-!
# Depth-first walks over a mutable store

A depth-first walk visits a node, then follows its outgoing edges one by one and
calls itself on their targets. Visiting a node and following an edge may change
the store, so the rule below is about the store as a whole: an invariant that
every step keeps, an assertion tied to the node the walk currently stands on,
and a goal that visiting a node reaches for good.

The recursion takes fuel and reports its exhaustion as an error. The rule proves
that a walk whose edges decrease a rank ends without that error.
-/

namespace DepthFirst

variable {σ ν ε φ : Type*}

/-- The steps of a walk: the edges that leave a node in the current store, the
target of an edge, and the effects of arriving at a node and of taking an edge. -/
structure Walk (σ ν ε φ : Type*) where
  edges : σ → ν → List ε
  target : ε → ν
  visit : ν → σ → Except φ σ
  follow : ν → ε → σ → Except φ σ
  exhausted : φ

namespace Walk

/-- The walk itself. Each recursive call spends one unit of fuel. -/
def run (walk : Walk σ ν ε φ) : Nat → ν → σ → Except φ σ
  | 0, _, _ => .error walk.exhausted
  | fuel + 1, n, s => do
      let s ← walk.visit n s
      (walk.edges s n).foldlM (fun s e => do
        let s ← walk.follow n e s
        walk.run fuel (walk.target e) s) s

/-- What has to be shown about the single steps of a walk over a fixed graph of
children. `At n` is what holds while the walk stands on `n`; `Done n` is what
the visit of `n` establishes and no later step destroys. -/
structure Steps (walk : Walk σ ν ε φ) (Inv : σ → Prop) (At Done : ν → σ → Prop)
    (Child : ν → ε → Prop) (rank : ν → Nat) : Prop where
  visit : ∀ {n s}, Inv s → At n s → ∃ s', walk.visit n s = .ok s' ∧ Inv s' ∧ At n s' ∧
    Done n s' ∧ ∀ m, Done m s → Done m s'
  edges : ∀ {n s}, Inv s → At n s → ∀ e, e ∈ walk.edges s n ↔ Child n e
  follow : ∀ {n e s}, Inv s → At n s → Child n e → ∃ s', walk.follow n e s = .ok s' ∧
    Inv s' ∧ At (walk.target e) s' ∧ ∀ m, Done m s → Done m s'
  back : ∀ {n e s}, Child n e → Inv s → At (walk.target e) s → At n s
  rank : ∀ {n e}, Child n e → rank (walk.target e) < rank n

/-- `m` is reached from `n` along child edges. -/
def Below (walk : Walk σ ν ε φ) (Child : ν → ε → Prop) : ν → ν → Prop :=
  Relation.ReflTransGen fun n m => ∃ e, Child n e ∧ walk.target e = m

variable {walk : Walk σ ν ε φ} {Inv : σ → Prop} {At Done : ν → σ → Prop}
variable {Child : ν → ε → Prop} {rank : ν → Nat}

/-- What a run from `n` guarantees: it ends normally, it keeps the invariant and
the caller's position, and it is done with everything below `n`. -/
def Completes (walk : Walk σ ν ε φ) (Inv : σ → Prop) (At Done : ν → σ → Prop)
    (Child : ν → ε → Prop) (n : ν) (result : Except φ σ) (s : σ) : Prop :=
  ∃ s', result = .ok s' ∧ Inv s' ∧ At n s' ∧ (∀ m, walk.Below Child n m → Done m s') ∧
    ∀ m, Done m s → Done m s'

private theorem edges_complete (steps : Steps walk Inv At Done Child rank) {n : ν} {fuel : Nat}
    (child : ∀ {e s}, Child n e → Inv s → At (walk.target e) s →
      Completes walk Inv At Done Child (walk.target e) (walk.run fuel (walk.target e) s) s)
    (es : List ε) (owned : ∀ e ∈ es, Child n e) (s : σ) (inv : Inv s) (here : At n s) :
    ∃ s', es.foldlM (fun s e => do
        let s ← walk.follow n e s
        walk.run fuel (walk.target e) s) s = .ok s' ∧
      Inv s' ∧ At n s' ∧ (∀ e ∈ es, ∀ m, walk.Below Child (walk.target e) m → Done m s') ∧
      ∀ m, Done m s → Done m s' := by
  induction es generalizing s with
  | nil => exact ⟨s, rfl, inv, here, by simp, fun _ done => done⟩
  | cons e es ih =>
      have owns : Child n e := owned e (by simp)
      obtain ⟨s₁, followed, inv₁, at₁, kept₁⟩ := steps.follow inv here owns
      obtain ⟨s₂, ran, inv₂, at₂, below₂, kept₂⟩ := child owns inv₁ at₁
      obtain ⟨s₃, rest, inv₃, at₃, below₃, kept₃⟩ :=
        ih (fun e he => owned e (List.mem_cons_of_mem _ he)) s₂ inv₂ (steps.back owns inv₂ at₂)
      refine ⟨s₃, ?_, inv₃, at₃, ?_, fun m done => kept₃ m (kept₂ m (kept₁ m done))⟩
      · rw [List.foldlM_cons, followed]
        change (walk.run fuel (walk.target e) s₁ >>= _) = _
        rw [ran]
        exact rest
      · intro e' he' m below
        obtain rfl | he' := List.mem_cons.mp he'
        · exact kept₃ m (below₂ m below)
        · exact below₃ e' he' m below

/-- The walk rule: a run with more fuel than the rank of its start ends normally
and is done with every node it can reach. -/
theorem run_complete (steps : Steps walk Inv At Done Child rank) {fuel : Nat} {n : ν} {s : σ}
    (enough : rank n < fuel) (inv : Inv s) (here : At n s) :
    Completes walk Inv At Done Child n (walk.run fuel n s) s := by
  induction fuel generalizing n s with
  | zero => exact absurd enough (Nat.not_lt_zero _)
  | succ fuel ih =>
      obtain ⟨s₁, visited, inv₁, at₁, done₁, kept₁⟩ := steps.visit inv here
      have child : ∀ {e s}, Child n e → Inv s → At (walk.target e) s →
          Completes walk Inv At Done Child (walk.target e)
            (walk.run fuel (walk.target e) s) s := by
        intro e s owns inv here
        exact ih (Nat.lt_of_lt_of_le (steps.rank owns) (Nat.le_of_lt_succ enough)) inv here
      obtain ⟨s₂, looped, inv₂, at₂, below₂, kept₂⟩ := edges_complete steps child
        (walk.edges s₁ n) (fun e he => (steps.edges inv₁ at₁ e).mp he) s₁ inv₁ at₁
      refine ⟨s₂, ?_, inv₂, at₂, ?_, fun m done => kept₂ m (kept₁ m done)⟩
      · rw [run, visited]
        exact looped
      · intro m below
        -- The first edge of the path decides which recursive call reached `m`.
        obtain rfl | ⟨next, ⟨e, owns, rfl⟩, rest⟩ := Relation.ReflTransGen.cases_head below
        · exact kept₂ n done₁
        · exact below₂ e ((steps.edges inv₁ at₁ e).mpr owns) m rest

section Erasure

universe u

variable {ν ε φ : Type*} {σ τ : Type u}

/-- `walk'` does what `walk` does, on stores that carry something more. -/
structure Erases (walk' : Walk τ ν ε φ) (walk : Walk σ ν ε φ) (erase : τ → σ) : Prop where
  edges : ∀ s n, walk'.edges s n = walk.edges (erase s) n
  target : ∀ e, walk'.target e = walk.target e
  visit : ∀ n s, erase <$> walk'.visit n s = walk.visit n (erase s)
  follow : ∀ n e s, erase <$> walk'.follow n e s = walk.follow n e (erase s)
  exhausted : walk'.exhausted = walk.exhausted

/-- Erasing what a run carries along gives the run that does not carry it. -/
theorem Erases.run {walk' : Walk τ ν ε φ} {walk : Walk σ ν ε φ} {erase : τ → σ}
    (erases : Erases walk' walk erase) (fuel : Nat) (n : ν) (s : τ) :
    erase <$> walk'.run fuel n s = walk.run fuel n (erase s) := by
  induction fuel generalizing n s with
  | zero => exact congrArg Except.error erases.exhausted
  | succ fuel ih =>
      have loop : ∀ (es : List ε) (s : τ),
          erase <$> es.foldlM (fun s e => walk'.follow n e s >>= walk'.run fuel (walk'.target e)) s =
            es.foldlM (fun s e => walk.follow n e s >>= walk.run fuel (walk.target e)) (erase s) := by
        intro es
        induction es with
        | nil => exact fun _ => rfl
        | cons e es rest =>
            intro s
            simp only [List.foldlM_cons, map_bind, rest, bind_assoc, ← erases.follow, bind_map_left,
              ← erases.target, ← ih]
      rw [Walk.run, Walk.run, map_bind, ← erases.visit, bind_map_left]
      apply bind_congr
      intro s
      rw [← erases.edges]
      exact loop _ s

end Erasure

end Walk

end DepthFirst
