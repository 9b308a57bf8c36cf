/-
`FlatHashMap.hpp`: the open-addressing table of the order index. The three arrays are functions
of the slot number, read and written below `capacity` only. Sizes and slot numbers are natural
numbers: a table has 17 bytes a slot, so none of the products below wraps for a table that fits
in memory (`insert_no_wrap`); the arguments of the constructor and of `reserve` are full words.

Every probe loop carries fuel: `none` says it has not ended after that many steps.
-/
import OrderBookEngine.Capacity
import OrderBookEngine.Lib.LinearProbing

namespace Obe

inductive SlotState
  | empty
  | occupied
  deriving DecidableEq, Repr

structure FlatHashMap (Key Value : Type) where
  keys : Nat → Key
  values : Nat → Value
  state : Nat → SlotState
  capacity : Nat
  mask : Nat
  size : Nat

/-- The SplitMix64 finalizer of `home`. -/
def scramble (key : UInt64) : UInt64 :=
  let x := key
  let x := x ^^^ (x >>> 30)
  let x := x * 0xbf58476d1ce4e5b9
  let x := x ^^^ (x >>> 27)
  let x := x * 0x94d049bb133111eb
  x ^^^ (x >>> 31)

namespace FlatHashMap

section Loops

variable {Key Value : Type}

/-- The probe loop of `find` and `erase`: `some (some i)` at the key, `some none` at an empty slot. -/
def findLoop [DecidableEq Key] (m : FlatHashMap Key Value) (key : Key) : Nat → Nat → Option (Option Nat)
  | 0, _ => none
  | fuel + 1, i =>
    if m.state i ≠ .empty then
      if m.state i = .occupied ∧ m.keys i = key then some (some i)
      else findLoop m key fuel ((i + 1) &&& m.mask)
    else some none

/-- The probe loop of `insert`, with the write that ends it. -/
def insertLoop [DecidableEq Key] (m : FlatHashMap Key Value) (key : Key) (value : Value) :
    Nat → Nat → Option (FlatHashMap Key Value)
  | 0, _ => none
  | fuel + 1, i =>
    if m.state i = .occupied then
      if m.keys i = key then some { m with values := Function.update m.values i value }
      else insertLoop m key value fuel ((i + 1) &&& m.mask)
    else
      some { m with
        keys := Function.update m.keys i key
        values := Function.update m.values i value
        state := Function.update m.state i .occupied
        size := m.size + 1 }

/-- The first writes of `erase_at`. -/
def openHole (m : FlatHashMap Key Value) (i : Nat) : FlatHashMap Key Value :=
  { m with state := Function.update m.state i .empty, size := m.size - 1 }

/-- The writes of `erase_at` that move the entry of slot `j` into slot `i`. -/
def moveBack (m : FlatHashMap Key Value) (i j : Nat) : FlatHashMap Key Value :=
  { m with
    keys := Function.update m.keys i (m.keys j)
    values := Function.update m.values i (m.values j)
    state := Function.update (Function.update m.state i .occupied) j .empty }

/-- The loop of `erase_at`: the hole is at `i`, the scan at `j`. -/
def eraseLoop (home : Key → Nat) : Nat → FlatHashMap Key Value → Nat → Nat → Option (FlatHashMap Key Value)
  | 0, _, _, _ => none
  | fuel + 1, m, i, j =>
    let j := (j + 1) &&& m.mask
    if m.state j = .empty then some m
    else
      let k := home (m.keys j)
      if (if i ≤ j then k > i ∧ k ≤ j else k > i ∨ k ≤ j) then eraseLoop home fuel m i j
      else eraseLoop home fuel (m.moveBack i j) j j

/-- `erase_at`; the scan of a full table can pass each slot many times, but never takes more rounds
than the square of their number. -/
def eraseAt (home : Key → Nat) (m : FlatHashMap Key Value) (i : Nat) : Option (FlatHashMap Key Value) :=
  eraseLoop home (m.capacity * m.capacity) (m.openHole i) i i

end Loops

variable {Value : Type}

def home (m : FlatHashMap UInt64 Value) (key : UInt64) : Nat := (scramble key).toNat &&& m.mask

/-- The slot of `key`, the pointer `find` returns. -/
def find (m : FlatHashMap UInt64 Value) (key : UInt64) : Option (Option Nat) :=
  m.findLoop key (m.capacity + 1) (m.home key)

def contains (m : FlatHashMap UInt64 Value) (key : UInt64) : Option Bool := (m.find key).map (·.isSome)

def erase (m : FlatHashMap UInt64 Value) (key : UInt64) : Option (Bool × FlatHashMap UInt64 Value) :=
  (m.findLoop key (m.capacity + 1) (m.home key)).bind fun
    | some i => (eraseAt m.home m i).map fun m' => (true, m')
    | none => some (false, m)

section Rehash

variable [Inhabited Value]

/-- The cleared arrays of `rehash`. -/
def cleared (newCap : Nat) : FlatHashMap UInt64 Value :=
  { keys := fun _ => 0, values := fun _ => default, state := fun _ => .empty,
    capacity := newCap, mask := newCap - 1, size := 0 }

/-- `rehash`, over the `insert` it calls for every old entry. -/
def rehashWith (ins : FlatHashMap UInt64 Value → UInt64 → Value → Option (FlatHashMap UInt64 Value))
    (m : FlatHashMap UInt64 Value) (newCap : Nat) : Option (FlatHashMap UInt64 Value) :=
  (List.range m.capacity).foldlM
    (fun acc s => if m.state s = .occupied then ins acc (m.keys s) (m.values s) else some acc) (cleared newCap)

/-- `insert`, with at most `depth` rehashes inside one another. -/
def insertN : Nat → FlatHashMap UInt64 Value → UInt64 → Value → Option (FlatHashMap UInt64 Value)
  | 0, _, _, _ => none
  | depth + 1, m, key, value =>
    (if (m.size + 1) * 8 ≥ m.capacity * 7 then rehashWith (insertN depth) m (m.capacity * 2) else some m).bind
      fun m => m.insertLoop key value (m.capacity + 1) (m.home key)

/-- `insert`; nested rehashes double the capacity, so 64 of them exceed any word. -/
def insert (m : FlatHashMap UInt64 Value) (key : UInt64) (value : Value) : Option (FlatHashMap UInt64 Value) :=
  insertN 64 m key value

def rehash (m : FlatHashMap UInt64 Value) (newCap : Nat) : Option (FlatHashMap UInt64 Value) :=
  rehashWith insert m newCap

/-- `reserve`; `n * 8` wraps as `size_t` does. -/
def reserve (m : FlatHashMap UInt64 Value) (n : UInt64) : Option (FlatHashMap UInt64 Value) :=
  let need := (roundUpPow2 (n * 8 / 7 + 1)).toNat
  if need > m.capacity then m.rehash need else some m

/-- The constructor: `rehash` of three arrays without slots. -/
def ofCapacity (initialCapacity : UInt64) : Option (FlatHashMap UInt64 Value) :=
  rehash (cleared 0) (roundUpPow2 (if initialCapacity < 8 then 8 else initialCapacity)).toNat

end Rehash

example : ((ofCapacity 8).bind fun m : FlatHashMap UInt64 Nat => (m.insert 10 100).bind fun m =>
    (m.insert 20 200).bind fun m => (m.erase 10).map fun r =>
      (r.1, r.2.size, r.2.find 10, (r.2.find 20).map fun i => i.map r.2.values)) =
    some (true, 1, some none, some (some 200)) := by decide

end FlatHashMap

end Obe
