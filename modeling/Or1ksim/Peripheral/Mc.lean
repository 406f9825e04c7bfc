import Or1ksim.Mem.AddressMap

/-!
# The memory controller

`peripheral/mc.c`: the registers of a controller, the memory areas that are registered for it, and its
reset. An area is a node of a singly linked list. The nodes wait on the global list `mc_areas` until the
reset of their controller moves them to its own.
-/

namespace Or1ksim.MemoryController

open Function (update)

abbrev Word := BitVec 32

def cscEn : Nat := 0
def cscMemtype : Nat := 1
def cscBw : Nat := 4
def cscSel : Nat := 16

def memtypeSdram : Nat := 0
def memtypeSsram : Nat := 1
def memtypeAsync : Nat := 2
def memtypeSync : Nat := 3

def tmsSdramValid : Word := 0x0fff83ff
def tmsSsramValid : Word := 0x00000000
def tmsAsyncValid : Word := 0x03ffffff
def tmsSyncValid : Word := 0x01ffffff

/-- The part of `struct dev_memarea` that a controller sets. -/
structure Memarea where
  addrMask : Word
  addrCompare : Word
  valid : Bool
  delayr : Word
  delayw : Word

/-- `struct mc_area`, without its link. -/
structure Area where
  mem : Nat
  cs : Word
  mc : Int

/-- `struct mc`. -/
structure Mc where
  csr : Word
  poc : Word
  baMask : Word
  csc : Nat → Word
  tms : Nat → Word
  index : Int
  mcAreas : Option Nat

/-- The nodes with their links, the global list, the controllers and the memory areas. Every one is known by a number. -/
structure Heap where
  size : Nat
  areas : Nat → Area
  next : Nat → Option Nat
  mcAreas : Option Nat
  mcs : Nat → Mc
  mems : Nat → Memarea

def setMemValid (mem : Nat) (valid : Bool) (h : Heap) : Heap :=
  { h with mems := update h.mems mem { h.mems mem with valid } }

def adjustRwDelay (mem : Nat) (delayr delayw : Word) (h : Heap) : Heap :=
  { h with mems := update h.mems mem { h.mems mem with delayr, delayw } }

/-- The source tests `(csc >> MC_CSC_MEMTYPE_OFFSET) && 0x07 == t`, which compares two constants. -/
def hasMemtype (csc : Word) (t : Nat) : Bool := csc >>> cscMemtype ≠ 0 && 0x07 = t

/-- What `set_csc_tms` does to the area of the chip select. -/
def programArea (mem : Nat) (csc tms baMask : Word) (h : Heap) : Heap :=
  let h := { h with mems := update h.mems mem { h.mems mem with addrMask := baMask <<< 22, addrCompare := (csc >>> cscSel) <<< 22 } }
  let h := setMemValid mem ((csc >>> cscEn) &&& 0x01 ≠ 0) h
  if hasMemtype csc memtypeAsync then
    adjustRwDelay mem ((tms &&& 0xff) + ((tms >>> 8) &&& 0x0f))
      (((tms >>> 12) &&& 0x0f) + ((tms >>> 16) &&& 0x0f) + ((tms >>> 20) &&& 0x3f)) h
  else if hasMemtype csc memtypeSdram then adjustRwDelay mem (3 + ((tms >>> 4) &&& 0x03)) (3 + ((tms >>> 4) &&& 0x03)) h
  else if hasMemtype csc memtypeSsram then adjustRwDelay mem 2 2 h
  else if hasMemtype csc memtypeSync then adjustRwDelay mem 2 2 h
  else h

/-- `set_csc_tms` from a node on. A list that does not end uses up the fuel. -/
def setCscTms (cs csc tms baMask : Word) : Nat → Option Nat → Heap → Option Heap
  | _, none, h => some h
  | 0, some _, _ => none
  | fuel + 1, some cur, h =>
    if (h.areas cur).cs = cs then some (programArea (h.areas cur).mem csc tms baMask h)
    else setCscTms cs csc tms baMask fuel (h.next cur) h

/-- `CSC` of the first chip select after a reset. -/
def resetCsc (poc : Word) : Word := (((poc &&& 0x0c) >>> 2) <<< cscMemtype) ||| ((poc &&& 0x03) <<< cscBw) ||| 1

def resetTms (csc : Word) : Word :=
  if hasMemtype csc memtypeAsync then tmsAsyncValid
  else if hasMemtype csc memtypeSdram then tmsSdramValid
  else if hasMemtype csc memtypeSsram then tmsSsramValid
  else if hasMemtype csc memtypeSync then tmsSyncValid
  else 0

/-- What precedes a node on the global list is made to skip it. -/
def unlink (prev : Option Nat) (cur : Nat) (h : Heap) : Heap :=
  match prev with
  | some p => { h with next := update h.next p (h.next cur) }
  | none => { h with mcAreas := h.next cur }

/-- A node goes to the front of a controller's list. -/
def push (m cur : Nat) (h : Heap) : Heap :=
  { h with
    next := update h.next cur (h.mcs m).mcAreas
    mcs := update h.mcs m { h.mcs m with mcAreas := some cur } }

/-- The loop of `mc_reset` that grabs the areas of the controller. -/
def grab (m : Nat) : Nat → Option Nat → Option Nat → Heap → Option Heap
  | _, none, _, h => some h
  | 0, some _, _, _ => none
  | fuel + 1, some cur, prev, h =>
    if (h.areas cur).mc = (h.mcs m).index then
      let h := unlink prev cur h
      let tmp := h.next cur
      grab m fuel tmp (some cur) (push m cur h)
    else grab m fuel (h.next cur) (some cur) h

/-- The loop of `mc_reset` that invalidates them. -/
def invalidate : Nat → Option Nat → Heap → Option Heap
  | _, none, h => some h
  | 0, some _, _ => none
  | fuel + 1, some cur, h => invalidate fuel (h.next cur) (setMemValid (h.areas cur).mem false h)

def resetRegs (mc : Mc) : Mc :=
  let csc := resetCsc mc.poc
  { mc with csr := 0, baMask := 0, csc := update (fun _ => 0) 0 csc, tms := update (fun _ => 0) 0 (resetTms csc) }

def clearMc (m : Nat) (h : Heap) : Heap := { h with mcs := update h.mcs m (resetRegs (h.mcs m)) }

/-- A walk over a list that does not end uses up the fuel. -/
def mcReset (fuel m : Nat) (h : Heap) : Option Heap := do
  let h := clearMc m h
  let h ← grab m fuel h.mcAreas none h
  let h ← invalidate fuel (h.mcs m).mcAreas h
  let mc := h.mcs m
  setCscTms 0 (mc.csc 0) (mc.tms 0) mc.baMask fuel mc.mcAreas h

def mcRegMemArea (area : Area) (h : Heap) : Heap :=
  { h with
    size := h.size + 1
    areas := update h.areas h.size area
    next := update h.next h.size h.mcAreas
    mcAreas := some h.size }

def mcRegMemAreas (areas : List Area) (h : Heap) : Heap := areas.foldl (fun h area => mcRegMemArea area h) h

/-- What the configuration gives a controller. -/
structure Section where
  poc : Word
  index : Int

/-- `mc_sec_start` and the parameters of a section. What `malloc` leaves in the registers is any value. -/
def mcSec (s : Section) (left : Mc) : Mc := { left with poc := s.poc, index := s.index, mcAreas := none }

/-- The controllers are configured, and the areas are registered. -/
def configured (sections : Nat → Section) (left : Nat → Mc) (mems : Nat → Memarea) (areas : List Area) : Heap :=
  mcRegMemAreas areas
    { size := 0
      areas := fun _ => ⟨0, 0, 0⟩
      next := fun _ => none
      mcAreas := none
      mcs := fun m => mcSec (sections m) (left m)
      mems }

end Or1ksim.MemoryController
