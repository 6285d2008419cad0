namespace ScriptGraph.Order

variable {α : Type}

/-- Puts `a` before the first item that it may precede. -/
def insert (le : α → α → Bool) (a : α) : List α → List α
  | [] => [a]
  | b :: bs => if le a b then a :: b :: bs else b :: insert le a bs

/-- The items in ascending order; items that are equal in it stay as they were. -/
def sort (le : α → α → Bool) : List α → List α
  -- `List.mergeSort` gives the same list, but does not reduce
  | [] => []
  | a :: as => insert le a (sort le as)

/-- The place of a double in the order of all doubles: `-0.0` comes before `0.0`, and what is not a
number behind everything. -/
def key (x : Float) : Int :=
  let bits : Nat := x.toBits.toNat
  if bits < UInt64.size / 2 then bits else UInt64.size / 2 - 1 - bits

end ScriptGraph.Order
