import Or1ksim.Peripheral.Effects

/-!
# The PS/2 keyboard

`peripheral/ps2kbd.c`. Replies of the controller, responses of the keyboard and scan codes are read at one port. What a read returns is
chosen by the last commands.
-/

namespace Or1ksim.Kbd

open Peripheral (Effect)

abbrev Byte := BitVec 8

/-! ### Constants -/

def kbdCtrl : Nat := 4
def kbdData : Nat := 0

/-- The commands of the keyboard. That of the echo is the one of the reset. -/
def kcmdRst : Byte := 0xff
def kcmdDk : Byte := 0xf5
def kcmdEk : Byte := 0xf4
def kcmdEcho : Byte := 0xff

def krespRstok : Byte := 0xaa
def krespEcho : Byte := 0xee
def krespAck : Byte := 0xfa

def ccmdRcb : Nat := 0x20
def ccmdWcb : Nat := 0x60
def ccmdSt1 : Nat := 0xaa
def ccmdSt2 : Nat := 0xab
def ccmdDki : Nat := 0xad
def ccmdEki : Nat := 0xae

def statusObf : Byte := 0x01
def statusInh : Byte := 0x10

def ccmdbyteInt : Byte := 0x01
def ccmdbyteSys : Byte := 0x04
def ccmdbyteEn : Byte := 0x10

def kbdMaxBuf : Nat := 0x100

/-- For each character, whether shift must be pressed, and its scan code. -/
def scanTable : List (Bool × Byte) :=
  [
    (false, 0x00), (false, 0x00), (false, 0x00), (false, 0x00), (false, 0x00), (false, 0x00), (false, 0x00), (false, 0x00),
    (false, 0x0E), (false, 0x0F), (false, 0x1C), (false, 0x00), (false, 0x00), (false, 0x00), (false, 0x00), (false, 0x00),
    (false, 0x00), (false, 0x00), (false, 0x00), (false, 0x00), (false, 0x00), (false, 0x00), (false, 0x00), (false, 0x00),
    (false, 0x00), (false, 0x00), (false, 0x00), (false, 0x01), (false, 0x00), (false, 0x00), (false, 0x00), (false, 0x00),
    (false, 0x39), (true, 0x02), (true, 0x28), (true, 0x04), (true, 0x05), (true, 0x06), (true, 0x08), (false, 0x28),
    (true, 0x0A), (true, 0x0B), (true, 0x09), (true, 0x0D), (false, 0x33), (false, 0x0C), (false, 0x34), (false, 0x35),
    (false, 0x0B), (false, 0x02), (false, 0x03), (false, 0x04), (false, 0x05), (false, 0x06), (false, 0x07), (false, 0x08),
    (false, 0x09), (false, 0x0A), (true, 0x27), (false, 0x27), (true, 0x33), (false, 0x0D), (true, 0x34), (true, 0x35),
    (true, 0x03), (true, 0x1E), (true, 0x30), (true, 0x2E), (true, 0x20), (true, 0x12), (true, 0x21), (true, 0x22),
    (true, 0x23), (true, 0x17), (true, 0x24), (true, 0x25), (true, 0x26), (true, 0x32), (true, 0x31), (true, 0x18),
    (true, 0x19), (true, 0x10), (true, 0x13), (true, 0x1F), (true, 0x14), (true, 0x16), (true, 0x2F), (true, 0x11),
    (true, 0x2D), (true, 0x15), (true, 0x2C), (false, 0x1A), (false, 0x2B), (false, 0x1B), (true, 0x07), (true, 0x0C),
    (false, 0x29), (false, 0x1E), (false, 0x30), (false, 0x2E), (false, 0x20), (false, 0x12), (false, 0x21), (false, 0x22),
    (false, 0x23), (false, 0x17), (false, 0x24), (false, 0x25), (false, 0x26), (false, 0x32), (false, 0x31), (false, 0x18),
    (false, 0x19), (false, 0x10), (false, 0x13), (false, 0x1F), (false, 0x14), (false, 0x16), (false, 0x2F), (false, 0x11),
    (false, 0x2D), (false, 0x15), (false, 0x2C), (true, 0x1A), (true, 0x2B), (true, 0x1B), (true, 0x29), (false, 0x00)]

/-! ### State -/

inductive Job where
  | kbdJob
  deriving DecidableEq, Repr

/-- `struct kbd_state`, with what is still to come from the input stream. -/
structure KbdState where
  buf : Nat → Byte
  bufCount : Nat
  bufHead : Nat
  bufTail : Nat
  rxfs : List Byte
  ccmd : Nat
  kcmd : Byte
  ccmdbyte : Byte
  kresp : Nat
  slowdown : Int
  effects : List (Effect Job)

def KbdState.emit (e : Effect Job) (k : KbdState) : KbdState := { k with effects := k.effects ++ [e] }

/-! ### The code -/

def kbdPut (c : Byte) (k : KbdState) : KbdState :=
  if kbdMaxBuf ≤ k.bufCount then k
  else
    { k with
      buf := Function.update k.buf k.bufHead c
      bufHead := (k.bufHead + 1) % kbdMaxBuf
      bufCount := k.bufCount + 1 }

def scanDecode (c : Byte) (k : KbdState) : KbdState :=
  match scanTable[c.toNat]? with
  | none => k
  | some (shift, code) =>
    if code = 0 then k
    else
      let k := if shift then kbdPut 0x2a k else k
      let k := kbdPut code k
      let k := kbdPut (code ||| 0x80) k
      if shift then kbdPut 0xaa k else k

def kbdWrite8 (addr : Nat) (value : Byte) (k : KbdState) : KbdState :=
  if addr = kbdCtrl then
    let k := { k with ccmd := value.toNat }
    let k := if k.ccmd = ccmdRcb then { k with kresp := 1 } else k
    let k := if k.ccmd = ccmdSt1 then { k with kresp := 1 } else k
    let k := if k.ccmd = ccmdSt2 then { k with kresp := 1 } else k
    let k := if k.ccmd = ccmdDki then { k.emit .clearInterrupt with ccmdbyte := k.ccmdbyte ||| ccmdbyteEn } else k
    if k.ccmd = ccmdEki then { k with ccmdbyte := k.ccmdbyte &&& ~~~ccmdbyteEn } else k
  else if addr = kbdData then
    let k := if k.ccmd = ccmdWcb then { k with ccmdbyte := value, ccmd := 0 } else { k with kcmd := value }
    let k := if k.kcmd = kcmdDk then { k with ccmdbyte := k.ccmdbyte ||| ccmdbyteEn } else k
    let k := if k.kcmd = kcmdEk then { k with ccmdbyte := k.ccmdbyte &&& ~~~ccmdbyteEn } else k
    { k with kresp := 1, ccmd := 0 }
  else k

/-- Whether the status shows that there is something to be read. -/
def obf (k : KbdState) : Bool := k.kresp ≠ 0 || k.bufCount ≠ 0

/-- What a read returns after a command of the controller. -/
def replyTo (ccmd : Nat) (ccmdbyte : Byte) : Byte :=
  let rc : Byte := if ccmd = ccmdRcb then ccmdbyte else 0
  let rc := if ccmd = ccmdSt1 then 0x55 else rc
  if ccmd = ccmdSt2 then 0 else rc

def kbdRead8 (addr : Nat) (k : KbdState) : Byte × KbdState :=
  if addr = kbdCtrl then ((if obf k then statusObf else 0) ||| (k.ccmdbyte &&& ccmdbyteSys) ||| statusInh, k)
  else if addr = kbdData then
    let k := k.emit .clearInterrupt
    if k.ccmd ≠ 0 then (replyTo k.ccmd k.ccmdbyte, { k with ccmd := 0, kresp := 0 })
    else if k.kresp ≠ 0 then
      if k.kresp = 2 then (krespRstok, { k with kresp := 0, kcmd := 0 })
      else if k.kcmd = kcmdRst then (krespAck, { k with kresp := 2, kcmd := 0 })
      else if k.kcmd = kcmdEcho then (krespEcho, { k with kresp := 0, kcmd := 0 })
      else (krespAck, { k with kresp := 0, kcmd := 0 })
    else if k.bufCount ≠ 0 then
      (k.buf k.bufTail, { k with bufTail := (k.bufTail + 1) % kbdMaxBuf, bufCount := k.bufCount - 1, kresp := 0 })
    else (0, { k with kresp := 0 })
  else (0, k)

def kbdJob (k : KbdState) : KbdState :=
  let k := match k.rxfs with
    | [] => k
    | c :: rest => scanDecode c { k with rxfs := rest }
  let kbdInt := obf k && k.ccmdbyte &&& ccmdbyteInt ≠ 0
  let k := if kbdInt then k.emit .reportInterrupt else k
  k.emit (.schedAdd .kbdJob k.slowdown)

/-- `kbd_reset`. The commands are as they are. -/
def kbdReset (rxfs : List Byte) (slowdown : Int) (k : KbdState) : KbdState :=
  { k with bufCount := 0, bufHead := 0, bufTail := 0, kresp := 0, ccmdbyte := 0x65, rxfs, slowdown }.emit (.schedAdd .kbdJob slowdown)

end Or1ksim.Kbd
