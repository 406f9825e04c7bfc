import Mathlib

/-!
# Special purpose registers

The register numbers and bits of `cpu/or1k/spr-defs.h` that the simulator reads or writes, and the
exceptions of `cpu/or1k/except.h`.
-/

namespace Or1ksim.Cpu

abbrev Word := BitVec 32

abbrev SprNo := BitVec 16

/-! ### Register numbers -/

def sprUpr : SprNo := 1
def sprCpucfgr : SprNo := 2
def sprAecr : SprNo := 12
def sprAesr : SprNo := 13
def sprNpc : SprNo := 16
def sprSr : SprNo := 17
def sprPpc : SprNo := 18
def sprFpcsr : SprNo := 20
def sprEpcrBase : SprNo := 32
def sprEearBase : SprNo := 48
def sprEsrBase : SprNo := 64

def sprDtlbmrBase : SprNo := 0x0a00
def sprItlbmrBase : SprNo := 0x1200

def sprDcbpr : SprNo := 0x1801
def sprDcbfr : SprNo := 0x1802
def sprDcbir : SprNo := 0x1803
def sprDcbwr : SprNo := 0x1804
def sprDcblr : SprNo := 0x1805
def sprIcbpr : SprNo := 0x2001
def sprIcbir : SprNo := 0x2002
def sprIcblr : SprNo := 0x2003

def sprMaclo : SprNo := 0x2801
def sprMachi : SprNo := 0x2802

def sprDvr (n : Nat) : SprNo := 0x3000 + BitVec.ofNat 16 n
def sprDcr (n : Nat) : SprNo := 0x3008 + BitVec.ofNat 16 n
def sprDmr1 : SprNo := 0x3010
def sprDmr2 : SprNo := 0x3011
def sprDwcr0 : SprNo := 0x3012
def sprDwcr1 : SprNo := 0x3013
def sprDsr : SprNo := 0x3014
def sprDrr : SprNo := 0x3015

def sprPccr (n : Nat) : SprNo := 0x3800 + BitVec.ofNat 16 n
def sprPcmr (n : Nat) : SprNo := 0x3808 + BitVec.ofNat 16 n

def sprPmr : SprNo := 0x4000
def sprPicmr : SprNo := 0x4800
def sprPicsr : SprNo := 0x4802
def sprTtmr : SprNo := 0x5000
def sprTtcr : SprNo := 0x5001

/-! ### Bits -/

def srSm : Word := 0x00000001
def srTee : Word := 0x00000002
def srIee : Word := 0x00000004
def srDce : Word := 0x00000008
def srIce : Word := 0x00000010
def srDme : Word := 0x00000020
def srIme : Word := 0x00000040
def srF : Word := 0x00000200
def srCy : Word := 0x00000400
def srOv : Word := 0x00000800
def srOve : Word := 0x00001000
def srEph : Word := 0x00004000
def srFo : Word := 0x00008000
def srSumra : Word := 0x00010000

def uprDcp : Word := 0x00000002
def uprIcp : Word := 0x00000004
def uprDmp : Word := 0x00000008
def uprImp : Word := 0x00000010

def cpucfgrNd : Word := 0x00000400
def cpucfgrAecsrp : Word := 0x00004000

/-- The bits of `AECR`; those of `AESR` are the same. -/
def aeCyadde : Word := 0x00000001
def aeOvadde : Word := 0x00000002
def aeCymule : Word := 0x00000004
def aeOvmule : Word := 0x00000008
def aeDbze : Word := 0x00000010
def aeOvmacadde : Word := 0x00000040

/-- The bits of `DTLBMR` and `ITLBMR`. -/
def tlbmrV : Word := 0x00000001
def tlbmrPl1 : Word := 0x00000002
def tlbmrCid : Word := 0x0000003c
def tlbmrLru : Word := 0x000000c0

def tlbtrCi : Word := 0x00000002
def tlbtrPpn : Word := 0xffffe000
def dtlbtrUre : Word := 0x00000040
def dtlbtrUwe : Word := 0x00000080
def dtlbtrSre : Word := 0x00000100
def dtlbtrSwe : Word := 0x00000200
def itlbtrSxe : Word := 0x00000040
def itlbtrUxe : Word := 0x00000080

/-- The bits of `DTLBTR` besides the page number: `CC` to `SWE`. -/
def dtlbtrBits : Word := 0x000003ff
/-- The bits of `ITLBTR` besides the page number: `CC` to `UXE`. -/
def itlbtrBits : Word := 0x000000ff

def dmr1St : Word := 0x00400000
def dmr2Wce0 : Word := 0x00000001
def dmr2Wce1 : Word := 0x00000002
def dmr2Awtc : Word := 0x00000ffc
def dmr2AwtcOff : Nat := 2
def dmr2Wgb : Word := 0x003ff000
def dmr2WgbOff : Nat := 12
def dmr2WbsOff : Nat := 22
def dwcrCount : Word := 0x0000ffff
def dwcrMatchOff : Nat := 16

def dcrDp : Word := 0x00000001
def dcrCc : Word := 0x0000000e
def dcrSc : Word := 0x00000010
def dcrCt : Word := 0x000000e0

def pcmrCism : Word := 0x00000004
def pcmrCium : Word := 0x00000008
def pcmrLa : Word := 0x00000010
def pcmrSa : Word := 0x00000020
def pcmrIf : Word := 0x00000040
def pcmrDcm : Word := 0x00000080
def pcmrIcm : Word := 0x00000100
def pcmrDtlbm : Word := 0x00001000
def pcmrItlbm : Word := 0x00002000

def pmrDme : Word := 0x00000010
def pmrSme : Word := 0x00000020
def pmrSume : Word := 0x00000080

def ttmrTp : Word := 0x0fffffff
def ttmrIp : Word := 0x10000000
def ttmrIe : Word := 0x20000000
def ttmrRt : Word := 0x40000000
def ttmrSr : Word := 0x80000000
def ttmrM : Word := 0xc0000000

def fpcsrFpee : Word := 0x00000001
def fpcsrRm : Word := 0x00000006
def fpcsrOvf : Word := 0x00000008
def fpcsrUnf : Word := 0x00000010
def fpcsrIxf : Word := 0x00000100
def fpcsrIvf : Word := 0x00000200
def fpcsrDzf : Word := 0x00000800
def fpcsrAllf : Word := 0x00000ff8

/-! ### Exceptions -/

inductive Exception where
  | reset | buserr | dpf | ipf | tick | align | illegal | int | dtlbmiss | itlbmiss | range
  | syscall | fpe | trap
  deriving DecidableEq, Repr

def Exception.vector : Exception → Word
  | .reset => 0x100
  | .buserr => 0x200
  | .dpf => 0x300
  | .ipf => 0x400
  | .tick => 0x500
  | .align => 0x600
  | .illegal => 0x700
  | .int => 0x800
  | .dtlbmiss => 0x900
  | .itlbmiss => 0xa00
  | .range => 0xb00
  | .syscall => 0xc00
  | .fpe => 0xd00
  | .trap => 0xe00

/-- The bit of `DSR` that `debug_ignore_exception` tests. It has no case for `EXCEPT_FPE`. -/
def Exception.dsr : Exception → Word
  | .reset => 0x00000001
  | .buserr => 0x00000002
  | .dpf => 0x00000004
  | .ipf => 0x00000008
  | .tick => 0x00000010
  | .align => 0x00000020
  | .illegal => 0x00000040
  | .int => 0x00000080
  | .dtlbmiss => 0x00000100
  | .itlbmiss => 0x00000200
  | .range => 0x00000400
  | .syscall => 0x00000800
  | .fpe => 0
  | .trap => 0x00002000

/-- Some bit of `mask` is set. -/
def has (w mask : Word) : Bool := w &&& mask ≠ 0

end Or1ksim.Cpu
