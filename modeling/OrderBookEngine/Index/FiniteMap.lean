/-
The order index refines a finite map: runs of its public calls return what the same calls on a
`Finmap` return.
-/
import OrderBookEngine.Index.Table
import OrderBookEngine.Lib.Machine
import Mathlib.Data.Finmap

namespace Obe.FlatHashMap

/-- The public calls. -/
inductive Call (Value : Type)
  | reserve (n : UInt64)
  | insert (key : UInt64) (value : Value)
  | find (key : UInt64)
  | contains (key : UInt64)
  | erase (key : UInt64)
  | size

/-- What a call returns; for `find` the value pointed to, or null. -/
inductive Ret (Value : Type)
  | done
  | value (v : Option Value)
  | flag (b : Bool)
  | count (n : Nat)

variable {Value : Type}

/-- One call on the table. -/
def call [Inhabited Value] (m : FlatHashMap UInt64 Value) : Call Value → Option (FlatHashMap UInt64 Value × Ret Value)
  | .reserve n => (m.reserve n).map (·, .done)
  | .insert key v => (m.insert key v).map (·, .done)
  | .find key => (m.find key).map fun i => (m, .value (i.map m.values))
  | .contains key => (m.contains key).map fun b => (m, .flag b)
  | .erase key => (m.erase key).map fun r => (r.2, .flag r.1)
  | .size => some (m, .count m.size)

/-- The finite maps the table stands for. -/
abbrev Entries (Value : Type) := Finmap fun _ : UInt64 => Value

/-- One call on the finite map. -/
def callMap (f : Entries Value) : Call Value → Entries Value × Ret Value
  | .reserve _ => (f, .done)
  | .insert key v => (f.insert key v, .done)
  | .find key => (f, .value (f.lookup key))
  | .contains key => (f, .flag (f.lookup key).isSome)
  | .erase key => (f.erase key, .flag (f.lookup key).isSome)
  | .size => (f, .count f.keys.card)

/-- The table holds exactly the entries of the finite map. -/
structure Represents (m : FlatHashMap UInt64 Value) (f : Entries Value) : Prop where
  wf : m.WF
  lookup : ∀ k, m.lookup k = f.lookup k
  size : m.size = f.keys.card

theorem mem_keys_iff (f : Entries Value) (k : UInt64) : k ∈ f.keys ↔ (f.lookup k).isSome := by
  rw [Finmap.mem_keys, Finmap.lookup_isSome]

theorem keys_insert (f : Entries Value) (k : UInt64) (v : Value) : (f.insert k v).keys = Insert.insert k f.keys := by
  ext a
  simp [Finmap.mem_keys, Finmap.mem_insert]

theorem card_keys_insert (f : Entries Value) (k : UInt64) (v : Value) :
    (f.insert k v).keys.card = if (f.lookup k).isSome then f.keys.card else f.keys.card + 1 := by
  rw [keys_insert]
  by_cases h : k ∈ f.keys
  · rw [Finset.insert_eq_of_mem h, if_pos ((mem_keys_iff f k).1 h)]
  · rw [Finset.card_insert_of_notMem h, if_neg (fun h' => h ((mem_keys_iff f k).2 h'))]

theorem card_keys_erase (f : Entries Value) (k : UInt64) :
    (f.erase k).keys.card = if (f.lookup k).isSome then f.keys.card - 1 else f.keys.card := by
  rw [Finmap.keys_erase]
  by_cases h : k ∈ f.keys
  · rw [Finset.card_erase_of_mem h, if_pos ((mem_keys_iff f k).1 h)]
  · rw [Finset.erase_eq_of_notMem h, if_neg (fun h' => h ((mem_keys_iff f k).2 h'))]

theorem lookup_update_insert (f : Entries Value) (k : UInt64) (v : Value) (x : UInt64) :
    Function.update (fun k => f.lookup k) k (some v) x = (f.insert k v).lookup x := by
  by_cases hx : x = k
  · subst hx; rw [Function.update_self, Finmap.lookup_insert]
  · rw [Function.update_of_ne hx, Finmap.lookup_insert_of_ne f hx]

theorem lookup_update_erase (f : Entries Value) (k x : UInt64) :
    Function.update (fun k => f.lookup k) k none x = (f.erase k).lookup x := by
  by_cases hx : x = k
  · subst hx; rw [Function.update_self, Finmap.lookup_erase]
  · rw [Function.update_of_ne hx, Finmap.lookup_erase_ne hx]

variable [Inhabited Value]

/-- Every call ends, returns what the finite map returns, and keeps the two in step. -/
theorem call_refines : Machine.Refines (@call Value _) callMap Represents := by
  rintro m f c ⟨hwf, hl, hs⟩
  have hlf : m.lookup = fun k => f.lookup k := funext hl
  cases c with
  | reserve n =>
    obtain ⟨m', hr, hwf', hl', hs', -⟩ := hwf.reserve_spec n
    exact ⟨m', by rw [call, hr]; rfl, hwf', fun k => by rw [hl']; exact hl k, by rw [hs']; exact hs⟩
  | insert key v =>
    obtain ⟨m', hr, hwf', hl', hs', -⟩ := hwf.insert_spec key v
    refine ⟨m', by rw [call, hr]; rfl, hwf', fun k => ?_, ?_⟩
    · rw [hl', hlf]; exact lookup_update_insert f key v k
    · rw [hs', hl, hs]; exact (card_keys_insert f key v).symm
  | find key =>
    obtain ⟨r, hr, hv⟩ := hwf.find_lookup key
    refine ⟨m, ?_, hwf, hl, hs⟩
    rw [call, hr, Option.map_some, hv, hl]; rfl
  | contains key =>
    refine ⟨m, ?_, hwf, hl, hs⟩
    rw [call, hwf.contains_eq, hl]; rfl
  | erase key =>
    obtain ⟨m', hr, hwf', hl', -, hs'⟩ := hwf.erase_spec key
    refine ⟨m', by rw [call, hr, hl]; rfl, hwf', fun k => ?_, ?_⟩
    · rw [hl', hlf]; exact lookup_update_erase f key k
    · rw [hs', hl, hs]; exact (card_keys_erase f key).symm
  | size => exact ⟨m, by rw [call, hs]; rfl, hwf, hl, hs⟩

/-- **Runs of the index are runs of a finite map.** For every initial capacity that can be rounded
up in a word, every sequence of calls ends and returns what it returns on the empty finite map. -/
theorem run_eq_finmap {initialCapacity : UInt64} (h : initialCapacity.toNat ≤ 2 ^ 63) (calls : List (Call Value)) :
    ∃ m, ((ofCapacity initialCapacity).bind fun m₀ => Machine.run call m₀ calls) =
        some (m, (Machine.runT callMap ∅ calls).2) ∧
      Represents m (Machine.runT callMap ∅ calls).1 := by
  obtain ⟨m₀, hr, hwf, hl, hs⟩ := @ofCapacity_spec Value _ _ h
  have h0 : Represents m₀ (∅ : Entries Value) :=
    ⟨hwf, fun k => by rw [hl, Finmap.lookup_empty], by rw [hs, Finmap.keys_empty]; rfl⟩
  obtain ⟨m, hm, hR⟩ := call_refines.run h0 calls
  exact ⟨m, by rw [hr]; exact hm, hR⟩

theorem run_eq_finmap_sixteen :
    ∃ m, ((ofCapacity 16).bind fun m₀ => Machine.run call m₀ [.insert 0 7, .insert 16 8, .erase 0, .find 16, .size]) =
        some (m, (Machine.runT callMap ∅ [.insert 0 7, .insert 16 8, .erase 0, .find 16, .size]).2) ∧
      Represents m (Machine.runT callMap ∅ [.insert 0 7, .insert 16 8, .erase 0, .find 16, .size]).1 :=
  run_eq_finmap (by decide) _

end Obe.FlatHashMap
