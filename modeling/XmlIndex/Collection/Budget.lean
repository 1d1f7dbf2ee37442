import XmlIndex.SortedMap

/-! # Slot budgets

Caches that want more slots ask for them, and whom they ask may be anybody (`SlotSource`).  A
budget bounds the slots of all caches together.  It lets a cache grow by a factor, by at least one
slot, and as far as the other caches leave room. -/

namespace XmlIndex

/-- Those whom caches ask for more slots, with what they remember. -/
class SlotSource (μ : Type) where
  /-- Enters a cache of this size. -/
  register : (cache : String) → (size : Nat) → μ → μ
  /-- Asks for more slots for a cache that has `current` of them; answers its new size, unless the
  request is refused. -/
  request : (cache : String) → (current : Nat) → μ → Option Nat × μ

/-- The slots all caches may have together, by which factor a cache may grow, and the slots
each cache has. -/
structure Budget where
  limit : Nat
  factor : Float
  sizes : SortedMap String Nat := .empty

namespace Budget

/-- A budget without caches.  A factor below one, or none at all, counts as one. -/
def ofFactor (limit : Nat) (factor : Float) : Budget :=
  { limit, factor := if factor > 1 then factor else 1 }

instance : Inhabited Budget := ⟨ofFactor 0 1⟩

/-- The slots of these caches together. -/
def total (sizes : SortedMap String Nat) : Nat := sizes.values.foldl (· + ·) 0

/-- The slots of all caches. -/
def allocated (b : Budget) : Nat := total b.sizes

/-- The slots of a cache. -/
def sizeOf? (b : Budget) (cache : String) : Option Nat := b.sizes.get? cache

/-- The budget with a cache of this size. -/
def register (b : Budget) (cache : String) (size : Nat) : Budget :=
  { b with sizes := b.sizes.insert cache size }

/-- What the factor makes of a size, rounded up, in 64 bits. -/
def scaled (b : Budget) (size : Nat) : Nat :=
  (Float.ofNat size * b.factor).ceil.toUInt64.toNat

/-- Asks for more slots for a cache that has `current` of them; answers its new size, if there
is room. -/
def request (b : Budget) (cache : String) (current : Nat) : Option Nat × Budget :=
  -- One slot more at least, even where the factor adds none.
  let wanted := max (b.scaled current) (current + 1)
  -- What the other caches have is not to be had.
  let granted := min wanted (b.limit - total (b.sizes.erase cache))
  if granted ≤ current then (none, b) else (some granted, b.register cache granted)

/-- Asks a budget, if there is one, for more slots for a cache. -/
def requestFrom (budget? : Option Budget) (cache : String) (current : Nat) :
    Option Nat × Option Budget :=
  match budget? with
  | none => (none, none)
  | some budget =>
    let (granted, budget) := budget.request cache current
    (granted, some budget)

/-- Without a budget every request is refused. -/
instance : SlotSource (Option Budget) where
  register cache size := Option.map fun budget => budget.register cache size
  request cache current budget? := requestFrom budget? cache current

end Budget

end XmlIndex
