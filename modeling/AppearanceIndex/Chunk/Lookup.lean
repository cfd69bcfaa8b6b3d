import AppearanceIndex.Chunk.Record
import AppearanceIndex.Search
import AppearanceIndex.Source.Seekable

/-!
# Lookups in an address table

A `Lookup` asks for the records at some positions of a table, one after another, and each answer may
decide where it asks next. It does not know where the records come from: `Lookup.run` carries it out
with a reading for each position. `Lookup.search` is the search for an address, which trusts the
table to be in ascending order.
-/

namespace AppearanceIndex

/-- A computation that asks for records of an address table. -/
inductive Lookup (α : Type) where
  | done (a : α)
  | ask (position : Nat) (next : AddressRecord → Lookup α)

namespace Lookup

variable {α β : Type}

protected def bind : Lookup α → (α → Lookup β) → Lookup β
  | done a, f => f a
  | ask position next, f => ask position fun record => (next record).bind f

instance : Monad Lookup where
  pure := done
  bind := Lookup.bind

/-- Carries a lookup out: one reading for each position that it asks for, and nothing else. -/
def run (recordAt : Nat → Reading AddressRecord) : Lookup α → Reading α
  | done a => pure a
  | ask position next => do
    let record ← recordAt position
    (next record).run recordAt

def record (position : Nat) : Lookup AddressRecord := ask position done

/-- The record at a position holds the target or a later address. -/
def reaches (target : Address) (position : Nat) : Lookup Bool := do
  let found ← record position
  return decide (target ≤ found.address)

/-- The search for an address in a table of `count` records. -/
def search (count : Nat) (target : Address) : Lookup (Option AddressRecord) := do
  let position ← lowerBound (reaches target) 0 count
  if position = count then
    return none
  let found ← record position
  return if found.address = target then some found else none

theorem run_bind (recordAt : Nat → Reading AddressRecord) (lookup : Lookup α)
    (f : α → Lookup β) :
    (lookup >>= f).run recordAt = lookup.run recordAt >>= fun a => (f a).run recordAt := by
  induction lookup with
  | done a => exact (pure_bind a fun a => (f a).run recordAt).symm
  | ask position next ih =>
    show (recordAt position >>= fun record => ((next record) >>= f).run recordAt) = _
    rw [run, bind_assoc]
    exact congrArg (recordAt position >>= ·) (funext ih)

/-- A search carried out is the search whose probes are carried out. -/
theorem run_lowerBound (recordAt : Nat → Reading AddressRecord) (probe : Nat → Lookup Bool)
    (low high : Nat) :
    (lowerBound probe low high).run recordAt =
      lowerBound (fun position => (probe position).run recordAt) low high := by
  generalize hn : high - low = n
  induction n using Nat.strongRecOn generalizing low high with
  | ind n ih =>
    rw [lowerBound, lowerBound]
    by_cases h : low < high
    · rw [dif_pos h, dif_pos h, run_bind]
      refine congrArg _ (funext fun answer => ?_)
      cases answer with
      | true => exact ih _ (by omega) low _ rfl
      | false => exact ih _ (by omega) _ high rfl
    · rw [dif_neg h, dif_neg h]
      rfl

theorem run_record (recordAt : Nat → Reading AddressRecord) (position : Nat) :
    (record position).run recordAt = recordAt position := bind_pure (recordAt position)

/-- The search written out over the readings. -/
theorem run_search (recordAt : Nat → Reading AddressRecord) (count : Nat) (target : Address) :
    (search count target).run recordAt = (do
      let position ← lowerBound (fun position => (reaches target position).run recordAt) 0 count
      if position = count then
        return none
      let found ← recordAt position
      return if found.address = target then some found else none) := by
  unfold search
  rw [run_bind, run_lowerBound]
  refine congrArg _ (funext fun position => ?_)
  by_cases hend : position = count
  · rw [if_pos hend, if_pos hend]
    rfl
  · rw [if_neg hend, if_neg hend, run_bind, run_record]
    rfl

end Lookup

end AppearanceIndex
