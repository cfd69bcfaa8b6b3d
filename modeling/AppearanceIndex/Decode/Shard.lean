/-!
# Shards of an address table

A shard is a run of consecutive positions of the address table that one worker decodes. `planShards`
divides a table among at most `maxWorkers` workers, one per address if there are fewer addresses:
every shard has the same length but the last, which also takes the remainder.
-/

namespace AppearanceIndex

/-- A run of positions of the address table. -/
structure Shard where
  start : Nat
  length : Nat
deriving DecidableEq, Inhabited

/-- The position behind the last. -/
def Shard.stop (s : Shard) : Nat := s.start + s.length

def planShards (addresses maxWorkers : Nat) : List Shard :=
  let workers := min maxWorkers addresses
  (List.range workers).map fun i =>
    { start := i * (addresses / workers)
      length :=
        if i + 1 = workers then addresses / workers + addresses % workers
        else addresses / workers }

end AppearanceIndex
