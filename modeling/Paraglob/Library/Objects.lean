import Mathlib.Data.List.Forall2

/-!
# Clients of objects

A client makes objects, asks them one after the other, and compares them two by two.
It sees what the calls return and never the states. Two classes of objects with the
same calls look the same to it when a relation of their states is kept by every call,
and for that it is enough to look at single calls.
-/

namespace Objects

variable {Make Ask Compare Outcome State State' : Type}

/-- How objects are made, what they answer, and how two of them compare. A constructor may fail,
and then there is no object. -/
structure Class (Make Ask Compare Outcome State : Type) where
  make : Make → Outcome × Option State
  ask : Ask → State → Outcome × State
  compare : Compare → State → State → Outcome

/-- The calls of a client, which numbers its objects in the order in which they were made. -/
inductive Call (Make Ask Compare : Type)
  | make (how : Make)
  | ask (i : Nat) (question : Ask)
  | compare (i j : Nat) (question : Compare)

/-- What is agreed about the calls: which constructors may be used, and which questions may be
asked in which states. -/
structure Contract (Make Ask State : Type) where
  make : Make → Prop
  ask : Ask → State → Prop

namespace Class

/-- The objects after a constructor was called. -/
def extend (objects : List State) (made : Option State) : List State := objects ++ made.toList

/-- One call. There is no outcome when there is no such object. -/
def step (c : Class Make Ask Compare Outcome State) (objects : List State) :
    Call Make Ask Compare → Option Outcome × List State
  | .make how =>
      let (outcome, made) := c.make how
      (some outcome, extend objects made)
  | .ask i question =>
      match objects[i]? with
      | none => (none, objects)
      | some s =>
          let (outcome, s) := c.ask question s
          (some outcome, objects.set i s)
  | .compare i j question =>
      match objects[i]?, objects[j]? with
      | some s, some t => (some (c.compare question s t), objects)
      | _, _ => (none, objects)

def run (c : Class Make Ask Compare Outcome State) :
    List State → List (Call Make Ask Compare) → List (Option Outcome)
  | _, [] => []
  | objects, call :: calls => (c.step objects call).1 :: c.run (c.step objects call).2 calls

end Class

namespace Contract

/-- The contract for one call. -/
def Allows (contract : Contract Make Ask State) (objects : List State) :
    Call Make Ask Compare → Prop
  | .make how => contract.make how
  | .ask i question => ∀ s, objects[i]? = some s → contract.ask question s
  | .compare _ _ _ => True

/-- A client that keeps the contract in every call. -/
def Kept (contract : Contract Make Ask State) (c : Class Make Ask Compare Outcome State) :
    List State → List (Call Make Ask Compare) → Prop
  | _, [] => True
  | objects, call :: calls =>
      contract.Allows objects call ∧ contract.Kept c (c.step objects call).2 calls

variable (contract : Contract Make Ask State) [DecidablePred contract.make]
variable [∀ question, DecidablePred (contract.ask question)]

instance decidableAllows (objects : List State) (call : Call Make Ask Compare) :
    Decidable (contract.Allows objects call) :=
  match call with
  | .make how => inferInstanceAs (Decidable (contract.make how))
  | .ask i question =>
      inferInstanceAs (Decidable (∀ s, objects[i]? = some s → contract.ask question s))
  | .compare _ _ _ => .isTrue trivial

instance decidableKept (c : Class Make Ask Compare Outcome State) :
    (objects : List State) → (calls : List (Call Make Ask Compare)) →
      Decidable (contract.Kept c objects calls)
  | _, [] => .isTrue trivial
  | objects, call :: calls =>
      have := decidableKept c (c.step objects call).2 calls
      inferInstanceAs (Decidable (_ ∧ _))

end Contract

/-- Related objects answer allowed questions alike and stay related. -/
structure Simulates (c : Class Make Ask Compare Outcome State)
    (c' : Class Make Ask Compare Outcome State') (contract : Contract Make Ask State')
    (R : State → State' → Prop) : Prop where
  make : ∀ how, contract.make how → (c.make how).1 = (c'.make how).1 ∧
    Option.Rel R (c.make how).2 (c'.make how).2
  ask : ∀ question s s', R s s' → contract.ask question s' →
    (c.ask question s).1 = (c'.ask question s').1 ∧
      R (c.ask question s).2 (c'.ask question s').2
  compare : ∀ question s s' t t', R s s' → R t t' →
    c.compare question s t = c'.compare question s' t'

namespace Simulates

variable {c : Class Make Ask Compare Outcome State} {c' : Class Make Ask Compare Outcome State'}
variable {contract : Contract Make Ask State'} {R : State → State' → Prop}
variable {objects : List State} {objects' : List State'}

theorem lookup (related : List.Forall₂ R objects objects') (i : Nat) :
    objects[i]? = none ∧ objects'[i]? = none ∨
      ∃ s s', objects[i]? = some s ∧ objects'[i]? = some s' ∧ R s s' := by
  induction related generalizing i with
  | nil => exact Or.inl ⟨rfl, rfl⟩
  | cons here _ ih =>
      cases i with
      | zero => exact Or.inr ⟨_, _, rfl, rfl, here⟩
      | succ i => exact ih i

theorem extend {made : Option State} {made' : Option State'}
    (related : List.Forall₂ R objects objects') (new : Option.Rel R made made') :
    List.Forall₂ R (Class.extend objects made) (Class.extend objects' made') := by
  apply List.rel_append related
  cases new with
  | some here => exact .cons here .nil
  | none => exact .nil

theorem set {s : State} {s' : State'} (related : List.Forall₂ R objects objects') (here : R s s')
    (i : Nat) : List.Forall₂ R (objects.set i s) (objects'.set i s') := by
  induction related generalizing i with
  | nil => exact .nil
  | cons first rest ih =>
      cases i with
      | zero => exact .cons here rest
      | succ i => exact .cons first (ih i)

/-- One allowed call has the same outcome on both sides and keeps the objects related. -/
theorem step (simulates : Simulates c c' contract R) (related : List.Forall₂ R objects objects')
    {call : Call Make Ask Compare} (allowed : contract.Allows objects' call) :
    (c.step objects call).1 = (c'.step objects' call).1 ∧
      List.Forall₂ R (c.step objects call).2 (c'.step objects' call).2 := by
  cases call with
  | make how =>
      obtain ⟨outcome, new⟩ := simulates.make how allowed
      exact ⟨congrArg some outcome, extend related new⟩
  | ask i question =>
      rw [Class.step, Class.step]
      obtain ⟨none, none'⟩ | ⟨s, s', here, here', same⟩ := lookup related i
      · rw [none, none']
        exact ⟨rfl, related⟩
      · obtain ⟨outcome, next⟩ := simulates.ask question s s' same (allowed s' here')
        rw [here, here']
        exact ⟨congrArg some outcome, set related next i⟩
  | compare i j question =>
      rw [Class.step, Class.step]
      obtain ⟨none, none'⟩ | ⟨s, s', here, here', same⟩ := lookup related i
      · rw [none, none']
        exact ⟨rfl, related⟩
      · obtain ⟨none, none'⟩ | ⟨t, t', there, there', same'⟩ := lookup related j
        · rw [here, here', none, none']
          exact ⟨rfl, related⟩
        · rw [here, here', there, there']
          exact ⟨congrArg some (simulates.compare question s s' t t' same same'), related⟩

/-- A client that keeps the contract sees the same outcomes on both sides. -/
theorem run (simulates : Simulates c c' contract R) (related : List.Forall₂ R objects objects')
    {calls : List (Call Make Ask Compare)} (kept : contract.Kept c' objects' calls) :
    c.run objects calls = c'.run objects' calls := by
  induction calls generalizing objects objects' with
  | nil => rfl
  | cons call calls ih =>
      obtain ⟨outcome, related'⟩ := simulates.step related kept.1
      rw [Class.run, Class.run, outcome, ih related' kept.2]

end Simulates

end Objects
