import LolStreams.Chaining

/-! The dictionary of Redis. Two tables with chaining, the first of which is moved into the
second bucket by bucket while the dictionary is in use. `none` stands for a failed assertion
and for a read outside of a table. -/
namespace LolStreams

open Chaining

structure Dict (κ β : Type) where
  ht0 : Table κ β
  ht1 : Table κ β
  rehashidx : Option ℕ
  iterators : ℕ

variable {κ β : Type} [DecidableEq κ] (hash : κ → UInt32)

def dictHashKey (k : κ) : ℕ := (hash k).toNat

def dictCreate : Dict κ β := ⟨.empty, .empty, none, 0⟩

def dictIsRehashing (d : Dict κ β) : Bool := d.rehashidx.isSome

def dictSize (d : Dict κ β) : ℕ := d.ht0.used + d.ht1.used

/-! ### Resizing -/

def nextPowerFrom (size : ℕ) : ℕ → ℕ → ℕ
  | 0, i => i
  | n + 1, i => if size ≤ i then i else nextPowerFrom size n (i * 2)

/-- Doubling from the initial size; `size` rounds are more than enough. -/
def dictNextPower (size : ℕ) : ℕ := nextPowerFrom size size 4

def dictExpand (d : Dict κ β) (size : ℕ) : Dict κ β × Bool :=
  if dictIsRehashing d ∨ size < d.ht0.used then (d, false)
  else if d.ht0.size = 0 then ({ d with ht0 := .ofSize (dictNextPower size) }, true)
  else ({ d with ht1 := .ofSize (dictNextPower size), rehashidx := some 0 }, true)

/-- `canResize` is the global `dict_can_resize`. -/
def dictResize (canResize : Bool) (d : Dict κ β) : Dict κ β × Bool :=
  if ¬ canResize ∨ dictIsRehashing d then (d, false)
  else dictExpand d (if d.ht0.used < 4 then 4 else d.ht0.used)

def dictExpandIfNeeded (canResize : Bool) (d : Dict κ β) : Dict κ β × Bool :=
  if dictIsRehashing d then (d, true)
  else if d.ht0.size = 0 then dictExpand d 4
  else if d.ht0.size ≤ d.ht0.used ∧ (canResize ∨ 5 < d.ht0.used / d.ht0.size) then
    dictExpand d (d.ht0.used * 2)
  else (d, true)

/-! ### Moving buckets -/

/-- Put an entry at the head of its chain. -/
def linkEntry (t : Table κ β) (e : κ × β) : Option (Table κ β) := do
  let b ← t.buckets[t.index (dictHashKey hash) e.1]?
  some (t.setBucket (t.index (dictHashKey hash) e.1) (e :: b) (t.used + 1))

/-- One round of the loop of `dictRehash`, and whether the loop goes on. -/
def rehashBucket (d : Dict κ β) (r : ℕ) : Option (Dict κ β × Bool) :=
  if d.ht0.used = 0 then some (⟨d.ht1, .empty, none, d.iterators⟩, false)
  else if d.ht0.size ≤ r then none
  else do
    let j ← (d.ht0.buckets.drop r).findIdx? fun b => !b.isEmpty
    let b ← d.ht0.buckets[r + j]?
    let t ← b.foldlM (linkEntry hash) d.ht1
    some (⟨d.ht0.setBucket (r + j) [] (d.ht0.used - b.length), t, some (r + j + 1),
      d.iterators⟩, true)

/-- Whether there are still keys to move. -/
def dictRehash (d : Dict κ β) : ℕ → Option (Dict κ β × Bool)
  | 0 => some (d, dictIsRehashing d)
  | n + 1 =>
    match d.rehashidx with
    | none => some (d, false)
    | some r => do
      let (d, more) ← rehashBucket hash d r
      if more then dictRehash d n else some (d, false)

def dictRehashStep (d : Dict κ β) : Option (Dict κ β) :=
  if d.iterators = 0 then (dictRehash hash d 1).map Prod.fst else some d

/-- Each operation on keys moves a bucket first. -/
def moveOn (d : Dict κ β) : Option (Dict κ β) :=
  if dictIsRehashing d then dictRehashStep hash d else some d

/-! ### Keys -/

/-- The search through the chains of a key. -/
def findEntry (d : Dict κ β) (k : κ) : Option (Option β) := do
  let b ← d.ht0.buckets[d.ht0.index (dictHashKey hash) k]?
  match b.lookup k with
  | some v => some (some v)
  | none =>
    if dictIsRehashing d then do
      let b ← d.ht1.buckets[d.ht1.index (dictHashKey hash) k]?
      some (b.lookup k)
    else some none

def dictFind (d : Dict κ β) (k : κ) : Option (Dict κ β × Option β) :=
  if d.ht0.size = 0 then some (d, none)
  else do
    let d ← moveOn hash d
    let v ← findEntry hash d k
    some (d, v)

/-- The slot for a new entry, `-1` being `none`. Up to `2 ^ 31` buckets a slot fits into the `int`
that is returned. -/
def dictKeyIndex (canResize : Bool) (d : Dict κ β) (k : κ) : Option (Dict κ β × Option ℕ) :=
  let (d, ok) := dictExpandIfNeeded canResize d
  if ok then do
    match ← findEntry hash d k with
    | some _ => some (d, none)
    | none =>
      some (d, some (if dictIsRehashing d then d.ht1.index (dictHashKey hash) k
        else d.ht0.index (dictHashKey hash) k))
  else some (d, none)

def dictAdd (canResize : Bool) (d : Dict κ β) (k : κ) (v : β) : Option (Dict κ β × Bool) := do
  let d ← moveOn hash d
  let (d, index) ← dictKeyIndex hash canResize d k
  match index with
  | none => some (d, false)
  | some i =>
    if dictIsRehashing d then do
      let b ← d.ht1.buckets[i]?
      some ({ d with ht1 := d.ht1.setBucket i ((k, v) :: b) (d.ht1.used + 1) }, true)
    else do
      let b ← d.ht0.buckets[i]?
      some ({ d with ht0 := d.ht0.setBucket i ((k, v) :: b) (d.ht0.used + 1) }, true)

/-- Set the value of the entry that `dictFind` has found. -/
def dictSetVal (d : Dict κ β) (k : κ) (v : β) : Option (Dict κ β) := do
  let i := d.ht0.index (dictHashKey hash) k
  let b ← d.ht0.buckets[i]?
  if (b.lookup k).isSome then
    some { d with ht0 := d.ht0.setBucket i (relink k v b) d.ht0.used }
  else do
    let i := d.ht1.index (dictHashKey hash) k
    let b ← d.ht1.buckets[i]?
    some { d with ht1 := d.ht1.setBucket i (relink k v b) d.ht1.used }

def dictReplace (canResize : Bool) (d : Dict κ β) (k : κ) (v : β) :
    Option (Dict κ β × Bool) := do
  let (d, added) ← dictAdd hash canResize d k v
  if added then some (d, true)
  else do
    let (d, found) ← dictFind hash d k
    if found.isNone then none
    else do
      let d ← dictSetVal hash d k v
      some (d, false)

def dictGenericDelete (d : Dict κ β) (k : κ) : Option (Dict κ β × Bool) :=
  if d.ht0.size = 0 then some (d, false)
  else do
    let d ← moveOn hash d
    let i := d.ht0.index (dictHashKey hash) k
    let b ← d.ht0.buckets[i]?
    if (b.lookup k).isSome then
      some ({ d with ht0 := d.ht0.setBucket i (unlink k b) (d.ht0.used - 1) }, true)
    else if dictIsRehashing d then do
      let i := d.ht1.index (dictHashKey hash) k
      let b ← d.ht1.buckets[i]?
      if (b.lookup k).isSome then
        some ({ d with ht1 := d.ht1.setBucket i (unlink k b) (d.ht1.used - 1) }, true)
      else some (d, false)
    else some (d, false)

def dictEmpty (_ : Dict κ β) : Dict κ β := dictCreate

end LolStreams
