import Or1ksim.Lib.Flags
import Or1ksim.Peripheral.Effects

/-!
# The serial port

`peripheral/16450.c`: the registers of the UART, its interrupt, the transmitter and the receiver, and the
commands that arrive over VAPI.
-/

namespace Or1ksim.Uart

open Peripheral (Effect Bus)
open Flags (has)

abbrev Byte := BitVec 8

/-! ### Constants -/

def clockDivider : Nat := 16
def fgetcSlowdown : Nat := 100
def vapiBufLen : Nat := 128
def maxSkew : Int := 1
def breakCount : Nat := 1
def charTimeout : Nat := 4

def validFcr : Byte := 0xc0
def validIer : Byte := 0x0f
def validIir : Byte := 0x0f
def validMcr : Byte := 0x1f

def lcrDlab : Byte := 0x80
def lcrSbc : Byte := 0x40
def lcrSpar : Byte := 0x20
def lcrEpar : Byte := 0x10
def lcrParity : Byte := 0x08
def lcrStop : Byte := 0x04
def lcrWlen8 : Byte := 0x03
def lcrReset : Byte := 0x03

def lsrRxerr : Byte := 0x80
def lsrTxsere : Byte := 0x40
def lsrTxbufe : Byte := 0x20
def lsrBreak : Byte := 0x10
def lsrFrame : Byte := 0x08
def lsrParity : Byte := 0x04
def lsrOvrrun : Byte := 0x02
def lsrRdrdy : Byte := 0x01

def iirNoInt : Byte := 0x01
def iirMsi : Byte := 0x00
def iirThri : Byte := 0x02
def iirRdi : Byte := 0x04
def iirRlsi : Byte := 0x06
def iirCti : Byte := 0x0c

def fcrFie : Byte := 0x01
def fcrRrxfi : Byte := 0x02
def fcrRtxfi : Byte := 0x04

def ierMsi : Byte := 0x08
def ierRlsi : Byte := 0x04
def ierThri : Byte := 0x02
def ierRdi : Byte := 0x01

def mcrLoop : Byte := 0x10
def mcrAux2 : Byte := 0x08
def mcrAux1 : Byte := 0x04
def mcrRts : Byte := 0x02
def mcrDtr : Byte := 0x01

def msrDcd : Byte := 0x80
def msrRi : Byte := 0x40
def msrDsr : Byte := 0x20
def msrCts : Byte := 0x10
def msrDdcd : Byte := 0x08
def msrTeri : Byte := 0x04
def msrDdsr : Byte := 0x02
def msrDcts : Byte := 0x01

def fifoTrigger (x : Byte) : Nat :=
  match x.toNat with
  | 0 => 1
  | 1 => 4
  | 2 => 8
  | 3 => 14
  | _ => 0

/-! ### State -/

/-- The jobs of the UART, and those of the rest of the simulator. -/
inductive Job where
  | intCti | txSend | charClock | sendBreak
  | recvChar | recvBreak | recvBreakStart | recvBreakStop | checkChar | vapiCmd
  | other (n : Nat)
  deriving DecidableEq, Repr

structure Vapi where
  charClks : Nat
  dll : Byte
  dlh : Byte
  lcr : Byte
  skew : Int
  deriving Inhabited

/-- `struct dev_16450`, and what the UART has asked for since an access or a job began. -/
structure Dev where
  txbuf : Nat → Byte
  /-- The upper half of an entry goes to `LSR`. -/
  rxbuf : Nat → BitVec 16
  dll : Byte
  dlh : Byte
  ier : Byte
  iir : Byte
  fcr : Byte
  lcr : Byte
  mcr : Byte
  lsr : Byte
  msr : Byte
  scr : Byte
  txser : Byte
  rxser : BitVec 16
  loopback : Byte
  txbufHead : Nat
  txbufTail : Nat
  rxbufHead : Nat
  rxbufTail : Nat
  txbufFull : BitVec 32
  rxbufFull : BitVec 32
  receiveing : Bool
  recvBreak : Bool
  ints : BitVec 32
  charClks : Nat
  vapi : Vapi
  vapiBuf : Nat → BitVec 32
  vapiBufHeadPtr : Nat
  vapiBufTailPtr : Nat
  fifoLen : Nat
  effects : List (Effect Job)
  /-- What has gone out to VAPI and to the channel. -/
  vapiOut : List (BitVec 32)
  channelOut : List Byte
  /-- The calls of `send_char` and of `uart_add_char`. They are not part of the program. -/
  sent : List Byte
  received : List (BitVec 16)
  deriving Inhabited

/-- A `vapi_id` of 0 stands for none. -/
structure Config where
  vapiId : Nat
  uart16550 : Bool

/-- What `channel_read` answers. -/
inductive ChannelRead where
  | char (c : Byte)
  | nothing
  | failed
  deriving DecidableEq, Repr

def put {α : Type} (buf : Nat → α) (i : Nat) (a : α) : Nat → α := fun j => if j = i then a else buf j

def Dev.emit (e : Effect Job) (u : Dev) : Dev := { u with effects := u.effects ++ [e] }

/-- `char_clks`, which counts in halves of a bit. -/
def charClksOf (dll dlh lcr : Byte) : Nat :=
  let baudsPerChar := 2 + (if has lcr lcrParity then 2 else 0) +
    (if has lcr lcrStop then 4 else if lcr &&& 3 ≠ 0 then 2 else 3) + (10 + (lcr &&& 3).toNat * 2)
  ((dlh.toNat * 2 ^ 8 + dll.toNat) * baudsPerChar) / 2

/-! ### Interrupts -/

def intBit (intr : Byte) : BitVec 32 := 1 <<< intr.toNat

/-- The functions that raise an interrupt: `yields` says which identifications make way for it. -/
def intRaise (intr enable : Byte) (yields : Byte → Bool) (u : Dev) : Dev :=
  let u := { u with ints := u.ints ||| intBit intr }
  if !has u.ier enable then u
  else if yields u.iir then { u with iir := intr }.emit .reportInterrupt
  else u

def intMsi : Dev → Dev := intRaise iirMsi ierMsi fun iir => has iir iirNoInt || iir = iirMsi

def intThri : Dev → Dev := intRaise iirThri ierThri fun iir => has iir iirNoInt || iir = iirMsi || iir = iirThri

def intCti : Dev → Dev := intRaise iirCti ierRdi fun iir => iir ≠ iirRlsi && iir ≠ iirRdi

def intRdi : Dev → Dev := intRaise iirRdi ierRdi fun iir => iir ≠ iirRlsi

def intRlsi : Dev → Dev := intRaise iirRlsi ierRlsi fun _ => true

def checkRlsi (u : Dev) : Dev :=
  if has u.lsr (lsrOvrrun ||| lsrParity ||| lsrFrame ||| lsrBreak) then intRlsi u else u

def checkRdi (u : Dev) : Dev :=
  if fifoTrigger (u.fcr >>> 6) ≤ u.rxbufFull.toNat then intRdi u else u

def nextInt (u : Dev) : Dev :=
  if has u.ints (intBit iirRlsi) && has u.ier ierRlsi then intRlsi u
  else if has u.ints (intBit iirRdi) && has u.ier ierRdi then intRdi u
  else if has u.ints (intBit iirCti) && has u.ier ierRdi then intCti u
  else if has u.ints (intBit iirThri) && has u.ier ierThri then intThri u
  else if has u.ints (intBit iirMsi) && has u.ier ierMsi then intMsi u
  else { u.emit .clearInterrupt with iir := iirNoInt }

/-- An interrupt is no longer pending, nor is a timeout that is still to come. -/
def withdraw (intr : Byte) (u : Dev) : Dev :=
  let u := { u with ints := u.ints &&& ~~~intBit intr }
  if intr = iirCti then u.emit (.schedFindRemove .intCti) else u

def clearInt (intr : Byte) (u : Dev) : Dev :=
  let u := withdraw intr u
  if intr ≠ u.iir then u else nextInt u

/-! ### Loopback -/

/-- `MSR` with the lines of `MCR` looped back, and the changes that this brings. -/
def loopbackMsr (mcr msr : Byte) : Byte :=
  let msr := if mcr &&& mcrAux2 ≠ (msr &&& msrDcd) >>> 4 then msr ||| msrDdcd else msr
  let msr := if mcr &&& mcrAux1 < (msr &&& msrRi) >>> 4 then msr ||| msrTeri else msr
  let msr := if mcr &&& mcrRts ≠ (msr &&& msrCts) >>> 3 then msr ||| msrDcts else msr
  let msr := if mcr &&& mcrDtr ≠ (msr &&& msrDsr) >>> 5 then msr ||| msrDdsr else msr
  let msr := msr &&& ~~~(msrDcd ||| msrRi ||| msrDsr ||| msrCts)
  msr ||| ((mcr &&& mcrAux2) <<< 4) ||| ((mcr &&& mcrAux1) <<< 4) ||| ((mcr &&& mcrRts) <<< 3) ||| ((mcr &&& mcrDtr) <<< 5)

def loopback (u : Dev) : Dev :=
  if !has u.mcr mcrLoop then u
  else
    let u := { u with msr := loopbackMsr u.mcr u.msr }
    if has u.msr (msrDcts ||| msrDdsr ||| msrTeri ||| msrDdcd) then intMsi u else u

/-! ### The transmitter -/

/-- The parity of the low `n` bits. -/
def parity (packet : BitVec 32) (n : Nat) : Bool := (List.range n).foldl (fun par j => par ^^ packet.getLsbD j) false

/-- The word for VAPI: the character with its parity and stop bits, as the other side decodes it. -/
def vapiPacket (lcr vapiLcr txser : Byte) (bitsSend : Nat) : BitVec 32 :=
  let one (set : Bool) (n : Nat) : BitVec 32 := (if set then 1 else 0) <<< n
  let nbits := min bitsSend ((lcr &&& lcrWlen8).toNat + 5)
  let packet : BitVec 32 := txser.setWidth 32 &&& ((1 <<< nbits) - 1)
  let par := parity packet nbits
  let packet := if has lcr lcrParity then packet ||| one (has lcr lcrSpar || if has lcr lcrEpar then par else !par) nbits else packet
  let nbits := if has lcr lcrParity then nbits + 1 else nbits
  let packet := packet ||| one true nbits
  let packet := if has lcr lcrStop then packet ||| one true (nbits + 1) else packet
  let nbits := (vapiLcr &&& lcrWlen8).toNat + 5
  let data := packet &&& ((1 <<< nbits) - 1)
  let par := parity packet (nbits + 1)
  let pe := has vapiLcr lcrParity &&
    if has vapiLcr lcrSpar then !packet.getLsbD nbits else if has vapiLcr lcrEpar then par else !par
  let nbits := if has vapiLcr lcrParity then nbits + 1 else nbits
  let fe := !packet.getLsbD nbits || (has vapiLcr lcrStop && !packet.getLsbD (nbits + 1))
  data ||| (vapiLcr.setWidth 32 <<< 8) ||| one pe 16 ||| one fe 17

def sendChar (c : Config) (bitsSend : Nat) (u : Dev) : Dev :=
  let u := { u with sent := u.sent ++ [u.txser] }
  if has u.mcr mcrLoop then { u with loopback := u.txser }
  else if c.vapiId ≠ 0 then { u with vapiOut := u.vapiOut ++ [vapiPacket u.lcr u.vapi.lcr u.txser bitsSend] }
  else { u with channelOut := u.channelOut ++ [u.txser] }

def txSend (u : Dev) : Dev :=
  let u := { u with
    txser := u.txbuf u.txbufTail
    txbufTail := (u.txbufTail + 1) % u.fifoLen
    txbufFull := u.txbufFull - 1
    lsr := u.lsr &&& ~~~lsrTxsere }
  let u := if !has u.lcr lcrSbc then u.emit (.schedAdd .charClock (u.charClks * clockDivider)) else u.emit (.schedAdd .sendBreak 0)
  if u.txbufFull = 0 then intThri { u with lsr := u.lsr ||| lsrTxbufe } else u

/-- What follows a character or a break that has been shifted out. -/
def shiftedOut (u : Dev) : Dev := if u.txbufFull = 0 then { u with lsr := u.lsr ||| lsrTxsere } else txSend u

def charClock (c : Config) (u : Dev) : Dev := shiftedOut (sendChar c ((u.lcr &&& lcrWlen8).toNat + 5) u)

def sendBreak (u : Dev) : Dev := shiftedOut { u with vapiOut := u.vapiOut ++ [lcrSbc.setWidth 32 <<< 8] }

/-! ### The receiver -/

/-- The upper half of an entry of the receive buffer. -/
def lineStatus (ch : BitVec 16) : Byte := (ch >>> 8).setWidth 8

/-- The timeout of a character, counted from now. -/
def armTimeout (u : Dev) : Dev := u.emit (.schedAdd .intCti (u.charClks * charTimeout * clockDivider))

/-- A character goes to the buffer, or overruns it. -/
def storeChar (ch : BitVec 16) (u : Dev) : Dev :=
  if u.fifoLen < (u.rxbufFull + 1).toNat then intRlsi { u with lsr := u.lsr ||| (lsrOvrrun ||| lsrRxerr) }
  else
    let full := u.rxbufFull
    let u := { u with
      rxbuf := put u.rxbuf u.rxbufHead ch
      rxbufHead := (u.rxbufHead + 1) % u.fifoLen
      rxbufFull := full + 1 }
    if full = 0 then checkRlsi { u with lsr := u.lsr ||| lineStatus ch } else u

def addChar (ch : BitVec 16) (u : Dev) : Dev :=
  let u := { u with lsr := u.lsr ||| lsrRdrdy, received := u.received ++ [ch] }
  checkRdi (storeChar ch (armTimeout (clearInt iirCti u)))

def recvBreak (u : Dev) : Dev :=
  let lsr := lsrBreak ||| lsrRxerr ||| lsrRdrdy
  addChar (lsr.setWidth 16 <<< 8) u

def schedRecvCheck (c : Config) (u : Dev) : Dev :=
  if c.vapiId = 0 then u.emit (.schedAdd .checkChar (fgetcSlowdown * clockDivider)) else u

/-- The character in the shift register, cut to the length of a character. -/
def charToAdd (u : Dev) : BitVec 16 := u.rxser &&& (((1 <<< ((u.lcr &&& 3).toNat + 5)) - 1) ||| 0xff00)

/-- The receiver starts again: with the character that is looped back, or by looking for another one. -/
def recvNext (c : Config) (u : Dev) : Dev :=
  if has u.mcr mcrLoop then
    { u with rxser := u.loopback.setWidth 16, receiveing := true }.emit (.schedAdd .recvChar (u.charClks * clockDivider))
  else
    let u := schedRecvCheck c { u with receiveing := false }
    if c.vapiId ≠ 0 && u.vapiBufHeadPtr ≠ u.vapiBufTailPtr then u.emit (.schedAdd .vapiCmd 0) else u

def recvChar (c : Config) (u : Dev) : Dev := addChar (charToAdd u) (recvNext c u)

def checkChar (read : ChannelRead) (u : Dev) : Dev :=
  match read with
  | .char c => { u with rxser := c.setWidth 16, receiveing := true }.emit (.schedAdd .recvChar (u.charClks * clockDivider))
  | .nothing => u.emit (.schedAdd .checkChar (fgetcSlowdown * clockDivider))
  | .failed => u

/-! ### Commands of VAPI -/

def recvBreakStop (u : Dev) : Dev := { u with recvBreak := false }.emit (.schedFindRemove .recvBreak)

/-- `uart_recv_break_start`, which handles the commands that wait. -/
def recvBreakStartWith (vapiCmd : Dev → Dev) (c : Config) (u : Dev) : Dev :=
  let u := { u with receiveing := false, recvBreak := true }.emit (.schedFindRemove .recvChar)
  let u := if c.vapiId ≠ 0 && u.vapiBufHeadPtr ≠ u.vapiBufTailPtr then vapiCmd u else u
  u.emit (.schedAdd .recvBreak (breakCount * u.vapi.charClks * clockDivider))

/-- The error bits that a mismatch of the two sides gives. -/
def vapiErrors (vapi : Vapi) (lcr : Byte) (charClks : Nat) : Byte :=
  let mismatch := vapi.lcr &&& ~~~lcrSbc ≠ lcr &&& ~~~lcrSbc || vapi.charClks ≠ charClks || vapi.skew < -maxSkew || vapi.skew > maxSkew
  if !mismatch then 0 else if has lcr lcrParity then lsrFrame ||| lsrRxerr ||| lsrParity else lsrFrame ||| lsrRxerr

/-- The command of a character. -/
def vapiChar (data : BitVec 32) (u : Dev) : Dev :=
  let vapi := { u.vapi with lcr := (data >>> 8).setWidth 8 }
  let vapi := { vapi with charClks := charClksOf vapi.dll vapi.dlh vapi.lcr }
  let u := { u with vapi, rxser := (data.setWidth 16 &&& 0xff) ||| ((vapiErrors vapi u.lcr u.charClks).setWidth 16 <<< 8) }
  if !u.recvBreak then { u with receiveing := true }.emit (.schedAdd .recvChar (u.charClks * clockDivider)) else u

/-- `uart_vapi_cmd`. Every command leaves the buffer, so the fuel is the number of those that it holds. -/
def vapiCmd (c : Config) : Nat → Dev → Dev
  | 0, u => u
  | fuel + 1, u =>
    if u.vapiBufHeadPtr = u.vapiBufTailPtr then u
    else
      let data := u.vapiBuf u.vapiBufTailPtr
      let u := { u with vapiBufTailPtr := (u.vapiBufTailPtr + 1) % vapiBufLen }
      let low := (data &&& 0xffff).toNat
      match (data >>> 24).toNat with
      | 0 => vapiChar data u
      | 1 => vapiCmd c fuel { u with vapi := { u.vapi with dll := data.setWidth 8, dlh := (data >>> 8).setWidth 8 } }
      | 2 => vapiCmd c fuel { u with vapi := { u.vapi with lcr := (data >>> 8).setWidth 8 } }
      | 3 => vapiCmd c fuel { u with vapi := { u.vapi with skew := (data.setWidth 16).toInt } }
      | 4 =>
        if data.getLsbD 16 then
          if low = 0 then vapiCmd c fuel (recvBreakStartWith (vapiCmd c fuel) c u)
          else vapiCmd c fuel (u.emit (.schedAdd .recvBreakStart (low * clockDivider)))
        else if low = 0 then vapiCmd c fuel (recvBreakStop u)
        else vapiCmd c fuel (u.emit (.schedAdd .recvBreakStop (low * clockDivider)))
      | _ => vapiCmd c fuel u

def recvBreakStart (c : Config) (u : Dev) : Dev := recvBreakStartWith (vapiCmd c vapiBufLen) c u

/-- `uart_vapi_read`, which ends the simulator when the buffer is too small. -/
def vapiRead (c : Config) (data : BitVec 32) (u : Dev) : Option Dev :=
  let u := { u with
    vapiBuf := put u.vapiBuf u.vapiBufHeadPtr data
    vapiBufHeadPtr := (u.vapiBufHeadPtr + 1) % vapiBufLen }
  if u.vapiBufTailPtr = u.vapiBufHeadPtr then none
  else some (if !u.receiveing then vapiCmd c vapiBufLen u else u)

/-! ### Registers -/

/-- A character goes to the transmit buffer. When the buffer is full it takes the place at the head. -/
def queueChar (value : Byte) (u : Dev) : Dev :=
  if u.txbufFull.toNat < u.fifoLen then
    let full := u.txbufFull
    let u := { u with
      txbuf := put u.txbuf u.txbufHead value
      txbufHead := (u.txbufHead + 1) % u.fifoLen
      txbufFull := full + 1 }
    if full = 0 && has u.lsr lsrTxsere then u.emit (.schedAdd .txSend 0) else u
  else { u with txbuf := put u.txbuf u.txbufHead value }

def writeTxbuf (value : Byte) (u : Dev) : Dev :=
  clearInt iirThri (queueChar value { u with lsr := u.lsr &&& ~~~lsrTxbufe })

def resetTx (u : Dev) : Dev :=
  let u := { u with txbufHead := 0, txbufTail := 0, txbufFull := 0, lsr := u.lsr ||| lsrTxbufe }
  let u := if u.fifoLen = 16 then intThri u else u
  u.emit (.schedFindRemove .txSend)

def resetRx (u : Dev) : Dev :=
  let u := { u with rxbufHead := 0, rxbufTail := 0, rxbufFull := 0, lsr := u.lsr &&& ~~~lsrRdrdy }
  clearInt iirCti (clearInt iirRdi u)

/-- The value of `FCR` with the resets that a change of the mode brings. -/
def fcrValue (fifoLen : Nat) (value : Byte) : Byte :=
  if (fifoLen = 1 && has value fcrFie) || (fifoLen ≠ 1 && !has value fcrFie) then value ||| (fcrRrxfi ||| fcrRtxfi) else value

def writeFcr (value : Byte) (u : Dev) : Dev :=
  let u := { u with fcr := value &&& validFcr }
  let value := fcrValue u.fifoLen value
  let u := { u with fifoLen := if has value fcrFie then 16 else 1 }
  let u := if has value fcrRtxfi then resetTx u else u
  if has value fcrRrxfi then resetRx u else u

/-- The break that a write of `LCR` starts or ends while a character is being sent. -/
def switchBreak (value : Byte) (u : Dev) : Dev :=
  if u.lcr &&& lcrSbc = value &&& lcrSbc then u
  else
    let u :=
      if has value lcrSbc && !has u.lsr lsrTxsere then
        (u.emit (.schedFindRemove .charClock)).emit (.schedAdd .sendBreak 0)
      else u
    if !has value lcrSbc && !has u.lsr lsrTxsere then
      (u.emit (.schedAdd .txSend 0)).emit (.schedFindRemove .charClock)
    else u

def writeLcr (value : Byte) (u : Dev) : Dev :=
  let u := switchBreak value u
  { u with lcr := value, charClks := charClksOf u.dll u.dlh value }

def writeByte (addr : Nat) (value : Byte) (u : Dev) : Dev :=
  match has u.lcr lcrDlab, addr with
  | true, 0 => { u with dll := value, charClks := charClksOf value u.dlh u.lcr }
  | true, 1 => { u with dlh := value }
  | false, 0 => writeTxbuf value u
  | false, 1 => nextInt { u with ier := value &&& validIer }
  | _, 2 => writeFcr value u
  | _, 3 => writeLcr value u
  | _, 4 => loopback { u with mcr := value &&& validMcr }
  | _, 7 => { u with scr := value }
  | _, _ => u

/-- The character at the tail leaves the buffer. -/
def takeChar (u : Dev) : Byte × Dev :=
  if u.rxbufFull = 0 then (0, u)
  else ((u.rxbuf u.rxbufTail).setWidth 8, { u with rxbufTail := (u.rxbufTail + 1) % u.fifoLen, rxbufFull := u.rxbufFull - 1 })

/-- The status of the next character, if there is one. -/
def showNext (u : Dev) : Dev :=
  if u.rxbufFull = 0 then { u with lsr := u.lsr &&& ~~~lsrRdrdy }
  else checkRdi (checkRlsi (armTimeout { u with lsr := u.lsr ||| (lsrRdrdy ||| lineStatus (u.rxbuf u.rxbufTail)) }))

def readRxbuf (u : Dev) : Byte × Dev :=
  let (value, u) := takeChar u
  (value, showNext (clearInt iirCti (clearInt iirRdi u)))

def readIir (u : Dev) : Byte × Dev :=
  ((u.iir &&& validIir) ||| 0xc0, if u.iir = iirThri then clearInt iirThri u else u)

def readLsr (u : Dev) : Byte × Dev :=
  (u.lsr, clearInt iirRlsi { u with lsr := u.lsr &&& ~~~(lsrOvrrun ||| lsrBreak ||| lsrParity ||| lsrFrame ||| lsrRxerr) })

def readMsr (u : Dev) : Byte × Dev := (u.msr, loopback (clearInt iirMsi { u with msr := 0 }))

def readByte (addr : Nat) (u : Dev) : Byte × Dev :=
  match has u.lcr lcrDlab, addr with
  | true, 0 => (u.dll, u)
  | true, 1 => (u.dlh, u)
  | false, 0 => readRxbuf u
  | false, 1 => (u.ier &&& validIer, u)
  | _, 2 => readIir u
  | _, 3 => (u.lcr, u)
  | _, 4 => (0, u)
  | _, 5 => readLsr u
  | _, 6 => readMsr u
  | _, 7 => (u.scr, u)
  | _, _ => (0, u)

/-- `uart_reset`: the divisor of VAPI keeps its upper half. -/
def reset (c : Config) (u : Dev) : Dev :=
  schedRecvCheck c { u with
    fifoLen := if c.uart16550 then 16 else 1
    rxbufHead := 0, rxbufTail := 0, txbufHead := 0, txbufTail := 0, txbufFull := 0, rxbufFull := 0
    charClks := 0
    txser := 0, rxser := 0, loopback := 0
    receiveing := false, recvBreak := false, ints := 0
    txbuf := fun _ => 0, rxbuf := fun _ => 0
    dll := 0, dlh := 0, ier := 0, iir := iirNoInt, fcr := 0, lcr := lcrReset, mcr := 0
    lsr := lsrTxbufe ||| lsrTxsere
    msr := 0, scr := 0
    vapi := { u.vapi with skew := 0, lcr := 0, dll := 0, charClks := 0 }
    vapiBuf := fun _ => 0, vapiBufHeadPtr := 0, vapiBufTailPtr := 0 }

def runJob (c : Config) (read : ChannelRead) : Job → Dev → Dev
  | .intCti => intCti
  | .txSend => txSend
  | .charClock => charClock c
  | .sendBreak => sendBreak
  | .recvChar => recvChar c
  | .recvBreak => recvBreak
  | .recvBreakStart => recvBreakStart c
  | .recvBreakStop => recvBreakStop
  | .checkChar => checkChar read
  | .vapiCmd => vapiCmd c vapiBufLen
  | .other _ => id

/-! ### The UART and the scheduler -/

structure System where
  dev : Dev
  bus : Bus Job

/-- A call into the UART: it ends when the scheduler has done what it asks for. -/
def System.serve (s : System) (f : Dev → Dev) : Option System :=
  let u := f { s.dev with effects := [] }
  (Peripheral.perform s.bus u.effects).map fun bus => ⟨u, bus⟩

/-- What happens to the UART: accesses, commands, the clock, the jobs that are due, and the jobs that others add. -/
inductive Act where
  | read (addr : Nat)
  | write (addr : Nat) (value : Byte)
  | vapi (data : BitVec 32)
  | advance (n : Nat)
  | job (read : ChannelRead)
  | other (n : Nat) (time : Int)
  deriving DecidableEq, Repr

def step (c : Config) (s : System) : Act → Option System
  | .read addr => s.serve fun u => (readByte addr u).2
  | .write addr value => s.serve (writeByte addr value)
  | .vapi data =>
    -- `uart_reset` installs the handler when there is a `vapi_id`
    if c.vapiId = 0 then some s else do
      let u ← vapiRead c data { s.dev with effects := [] }
      let bus ← Peripheral.perform s.bus u.effects
      pure ⟨u, bus⟩
  | .advance n => some { s with bus := { s.bus with scheduler := Sched.advance s.bus.scheduler n } }
  | .job read =>
    if s.bus.scheduler.headTime.any (· ≤ 0) then do
      let (tmp, scheduler) ← Sched.popJob s.bus.scheduler
      { s with bus := { s.bus with scheduler } }.serve (runJob c read tmp.item.job)
    else some s
  | .other n time => (Effect.schedAdd (.other n) time).perform s.bus |>.map fun bus => { s with bus }

/-- Before the reset no job of the UART is queued, and its interrupt has not been reported. -/
structure Fresh (b : Bus Job) : Prop where
  line : b.line = false
  jobs : ∀ j, Peripheral.queued j b.scheduler ≠ 0 → ∃ n, j = .other n

/-- The states of the runs from a reset. -/
inductive Reached (c : Config) : System → Prop where
  | reset {u : Dev} {b : Bus Job} {s : System} (fresh : Fresh b) (ran : (⟨u, b⟩ : System).serve (reset c) = some s) : Reached c s
  | step {s s' : System} (act : Act) (before : Reached c s) (ran : step c s act = some s') : Reached c s'

/-- Some steps in a row. -/
def steps (c : Config) (s : System) : List Act → Option System
  | [] => some s
  | act :: acts => (step c s act).bind fun s => steps c s acts

theorem Reached.steps {c : Config} {s s' : System} (before : Reached c s) {acts : List Act} (ran : steps c s acts = some s') :
    Reached c s' := by
  induction acts generalizing s with
  | nil =>
    cases ran
    exact before
  | cons act acts ih =>
    obtain ⟨mid, first, rest⟩ := Option.bind_eq_some_iff.mp ran
    exact ih (before.step act first) rest

/-- A UART of which nothing is known, at the start of the simulator. -/
def poweredOn (c : Config) : Option System :=
  (Sched.schedInit (.other 0)).bind fun scheduler => (⟨default, scheduler, false⟩ : System).serve (reset c)

theorem poweredOn_fresh {c : Config} {s : System} (on : poweredOn c = some s) :
    ∃ u b, Fresh b ∧ (⟨u, b⟩ : System).serve (reset c) = some s := by
  obtain ⟨scheduler, started, ran⟩ := Option.bind_eq_some_iff.mp on
  refine ⟨default, ⟨scheduler, false⟩, ⟨rfl, fun j queued => ⟨0, ?_⟩⟩, ran⟩
  cases started
  by_contra other
  exact queued (List.count_eq_zero.mpr fun inside => other (List.mem_singleton.mp inside))

theorem poweredOn_reached {c : Config} {s : System} (on : poweredOn c = some s) : Reached c s := by
  obtain ⟨u, b, fresh, ran⟩ := poweredOn_fresh on
  exact .reset fresh ran

end Or1ksim.Uart
