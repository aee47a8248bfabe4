/-
Doorbell records: `dbrec.c`.

A doorbell record is eight bytes the driver shares with the device.  Records are handed
out from pages, one cache line each, so that no two records share a line; a page keeps a
word array with a bit for every free line and the number of lines in use.  A page is
allocated when all are full and freed with its last record.

The list of pages is protected by a mutex, and the two operations are atomic.  The answer
of `__add_page` to its two allocations is one: the address of the page's buffer, or a
failure.  A protection domain may bring its own allocator for the records.
-/
import Nicmem.C.Array
import Nicmem.Machine
import Mathlib.Algebra.Order.Ring.Nat

namespace Nicmem

open C

/-- The sizes the context knows: a page is a power of two of bytes and holds a cache line. -/
structure DbDevice where
  logPageSize : Nat
  cacheLineSize : Nat
  page_lt : logPageSize < 64
  line_pos : 0 < cacheLineSize
  line_le : cacheLineSize ≤ 2 ^ logPageSize

def DbDevice.pageSize (dev : DbDevice) : Nat := 2 ^ dev.logPageSize

/-- `struct mlx5_db_page`; `buf` is the address of its buffer. -/
structure Mlx5DbPage where
  buf : Nat
  numDb : Nat
  useCnt : Nat
  free : List (BitVec 64)
  deriving DecidableEq, Repr

/-- The page `__add_page` puts at the start of the list, with the address of its buffer. -/
def addPage (dev : DbDevice) (buf : Nat) : Mlx5DbPage :=
  let pp := dev.pageSize / dev.cacheLineSize
  let nlong := (pp + 64 - 1) / 64
  { buf, numDb := pp, useCnt := 0, free := List.replicate nlong (BitVec.allOnes 64) }

/-- `ffsl`: the position of the lowest set bit, counted from one, or zero. -/
def ffsl (w : BitVec 64) : Nat := ((List.range 64).find? w.getLsbD).elim 0 (· + 1)

/-- The loop over the words: the index of the first one that is not zero. -/
def firstFreeWord : List (BitVec 64) → Option Nat
  | [] => none
  | w :: ws => if w = 0 then (firstFreeWord ws).map (· + 1) else some 0

/-- From the label `found` on: the page with the record taken, and the record. -/
def takeDb (dev : DbDevice) (page : Mlx5DbPage) : Option (Mlx5DbPage × Nat) := do
  let i ← firstFreeWord page.free
  let w ← page.free[i]?
  let j := ffsl w - 1
  let free ← store page.free i (w &&& ~~~(1#64 <<< j))
  let db := page.buf + (i * 64 + j) * dev.cacheLineSize
  some ({ page with useCnt := page.useCnt + 1, free }, db)

/-- The first page with a free record has one taken; `none` inside is a list without. -/
def takeFirst (dev : DbDevice) : List Mlx5DbPage → Option (Option (List Mlx5DbPage × Nat))
  | [] => some none
  | page :: pages =>
      if page.useCnt < page.numDb then
        (takeDb dev page).map fun r => some (r.1 :: pages, r.2)
      else
        (takeFirst dev pages).map fun found => found.map fun r => (page :: r.1, r.2)

/-- `IBV_ALLOCATOR_USE_DEFAULT`, the pointer `(void *)-1`. -/
def allocatorUseDefault : Nat := 2 ^ 64 - 1

/-- The allocator of a protection domain: none, or one of its own with its answer, which is
a record, `NULL` or `IBV_ALLOCATOR_USE_DEFAULT`. -/
inductive DbrAllocator where
  | default
  | custom (db : Option Nat)
  deriving DecidableEq, Repr

/-- From the label `default_alloc` on, with the `db` so far: without a new page it is
returned as it came. -/
def defaultAlloc (dev : DbDevice) (dbList : List Mlx5DbPage) (db newPage : Option Nat) :
    Option (List Mlx5DbPage × Option Nat × Bool) := do
  match ← takeFirst dev dbList with
  | some (dbList, db) => some (dbList, some db, false)
  | none =>
      match newPage with
      | none => some (dbList, db, false)
      | some buf =>
          let (page, db) ← takeDb dev (addPage dev buf)
          some (page :: dbList, some db, false)

/-- The list of pages after the call, the record or `NULL`, and `custom_alloc`.  `newPage`
is the answer to `__add_page`, should it be called. -/
def mlx5AllocDbrec (dev : DbDevice) (dbList : List Mlx5DbPage) (pd : DbrAllocator)
    (newPage : Option Nat) : Option (List Mlx5DbPage × Option Nat × Bool) :=
  match pd with
  | .default => defaultAlloc dev dbList none newPage
  | .custom none => some (dbList, none, false)
  | .custom (some db) =>
      if db = allocatorUseDefault then
        defaultAlloc dev dbList (some db) newPage
      else
        some (dbList, some db, true)

/-- `db & ~(ps - 1)` on 64-bit addresses. -/
def dbPageOf (dev : DbDevice) (db : Nat) : Nat := db &&& (2 ^ 64 - 1 - (dev.pageSize - 1))

/-- The record goes back to its page; the page goes with its last record. -/
def putDb (dev : DbDevice) (db : Nat) : List Mlx5DbPage → Option (List Mlx5DbPage)
  | [] => some []
  | page :: pages =>
      if dbPageOf dev db = page.buf then do
        let i := (db - page.buf) / dev.cacheLineSize
        let free ← updateAt page.free (i / 64) fun w => some (w ||| 1#64 <<< (i % 64))
        if page.useCnt - 1 = 0 then
          some pages
        else
          some ({ page with useCnt := page.useCnt - 1, free } :: pages)
      else
        (putDb dev db pages).map (page :: ·)

def mlx5FreeDb (dev : DbDevice) (dbList : List Mlx5DbPage) (db : Nat) (customAlloc : Bool) :
    Option (List Mlx5DbPage) :=
  if customAlloc then some dbList else putDb dev db dbList

/-! ### The clients -/

/-- The pages, and the records the queues hold with their `custom_alloc` flags. -/
structure DbUse where
  dbList : List Mlx5DbPage
  live : List (Nat × Bool)
  deriving DecidableEq, Repr

inductive DbOp where
  | alloc (pd : DbrAllocator) (newPage : Option Nat)
  | free (db : Nat) (customAlloc : Bool)
  deriving DecidableEq, Repr

/-- One call; the output is the record.  The queues test a record only for `NULL`. -/
def DbUse.step (dev : DbDevice) (u : DbUse) : DbOp → Option (DbUse × Option Nat)
  | .alloc pd newPage =>
      (mlx5AllocDbrec dev u.dbList pd newPage).map fun r =>
        match r.2.1 with
        | some db => (⟨r.1, (db, r.2.2) :: u.live⟩, some db)
        | none => (⟨r.1, u.live⟩, none)
  | .free db customAlloc =>
      (mlx5FreeDb dev u.dbList db customAlloc).map fun dbList =>
        (⟨dbList, u.live.erase (db, customAlloc)⟩, none)

/-- The buffer of a new page is not at `NULL`, is aligned to the page size, as
`posix_memalign` is asked to and an external allocator has to know, ends below the last
address and is that of no other page. -/
def FreshPage (dev : DbDevice) (dbList : List Mlx5DbPage) (newPage : Option Nat) : Prop :=
  ∀ buf ∈ newPage, 0 < buf ∧ dev.pageSize ∣ buf ∧ buf + dev.pageSize < 2 ^ 64 ∧
    buf ∉ dbList.map (·.buf)

instance (dev : DbDevice) (dbList : List Mlx5DbPage) (newPage : Option Nat) :
    Decidable (FreshPage dev dbList newPage) :=
  inferInstanceAs (Decidable (∀ buf ∈ newPage, _))

/-- What the allocators and the queues keep to: new pages are fresh, and a queue frees a
record that it holds. -/
def DbOp.Legal (dev : DbDevice) (u : DbUse) : DbOp → Prop
  | .alloc _ newPage => FreshPage dev u.dbList newPage
  | .free db customAlloc => (db, customAlloc) ∈ u.live

instance DbOp.decidableLegal (dev : DbDevice) (u : DbUse) : ∀ op : DbOp, Decidable (op.Legal dev u)
  | .alloc _ newPage => inferInstanceAs (Decidable (FreshPage dev u.dbList newPage))
  | .free db customAlloc => inferInstanceAs (Decidable ((db, customAlloc) ∈ u.live))

/-- The calls keep to that from an empty list of pages on. -/
def DbLegal (dev : DbDevice) (ops : List DbOp) : Prop :=
  Machine.Respects (fun u op => op.Legal dev u) (DbUse.step dev) ⟨[], []⟩ ops

instance (dev : DbDevice) (ops : List DbOp) : Decidable (DbLegal dev ops) :=
  Machine.decidableRespects _ _ _ _

/-- The calls of the queues, from an empty list of pages on. -/
def dbRun (dev : DbDevice) (ops : List DbOp) : Option (DbUse × List (Option Nat)) :=
  Machine.run (DbUse.step dev) ⟨[], []⟩ ops

end Nicmem
