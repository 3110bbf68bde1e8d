/-!
# Linearizations

The order in which a class and its ancestors are searched for a name. The orders of the bases are
merged: a class comes next if no order has it behind another one, and the first base that offers
such a class wins.
-/

namespace TypeAtlas.Codebase

/-- Whether no list has the element behind its first. -/
def isNext (orders : List (List Nat)) (c : Nat) : Bool :=
  orders.all fun order => !order.tail.contains c

/-- The first element of a list that no list has behind its first. -/
def nextOf? (orders : List (List Nat)) : Option Nat :=
  (orders.filterMap List.head?).find? (isNext orders)

/-- Take an element away from the front of a list. -/
def dropHead (c : Nat) : List Nat → List Nat
  | [] => []
  | d :: rest => if c = d then rest else d :: rest

/-- Merge orders, with `fuel` elements at most. There may be no order that agrees with all. -/
def mergeOrders : Nat → List (List Nat) → Option (List Nat)
  | 0, orders => if orders.all List.isEmpty then some [] else none
  | fuel + 1, orders =>
    if orders.all List.isEmpty then some []
    else
      match nextOf? orders with
      | none => none
      | some c => (mergeOrders fuel (orders.map (dropHead c))).map (c :: ·)

/-- The order for a class with the given bases, whose own orders are given too. -/
def linearize? (c : Nat) (bases : List Nat) (orders : List (List Nat)) : Option (List Nat) :=
  let all := orders ++ [bases]
  (mergeOrders all.flatten.length all).map (c :: ·)

end TypeAtlas.Codebase
