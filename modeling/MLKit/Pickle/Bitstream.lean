import MLKit.Lib.Except
import MLKit.Lib.LittleEndian

/-!
# Bit streams

The model of `Bitstream`.  An output stream has the same two fields as an input
stream.  `wordSize` is the size of the host's words.  Positions are numbers and
buffers have any length: left out are the exception `Size` of a host that cannot
make a buffer twice as long, and words that overflow when they count the bits of
a very large buffer.
-/

namespace MLKit.Pickle

open MLKit.Lib MLKit.Lib.LittleEndian

inductive Exn where
  | subscript
  | overflow
  | fail (msg : String)
  deriving DecidableEq

/-- The bits read or written so far, and the bytes. -/
structure Stream where
  pos : Nat
  buf : List (BitVec 8)

def sub (buf : List (BitVec 8)) (i : Nat) : Except Exn (BitVec 8) :=
  if h : i < buf.length then .ok buf[i] else .error .subscript

def update (buf : List (BitVec 8)) (i : Nat) (w : BitVec 8) : Except Exn (List (BitVec 8)) :=
  if i < buf.length then .ok (buf.set i w) else .error .subscript

variable {wordSize : Nat}

def wordToWord8 (w : BitVec wordSize) : BitVec 8 := w.setWidth 8

def word8ToWord (w : BitVec 8) : BitVec wordSize := w.setWidth wordSize

def double (buf : List (BitVec 8)) : List (BitVec 8) := buf ++ List.replicate buf.length 0

def capacity (buf : List (BitVec 8)) : Nat := 8 * buf.length

def ensurespace (s : Stream) (i : Nat) : Stream :=
  if s.pos + i < capacity s.buf then s else { s with buf := double s.buf }

def alignmentProperties (pos : Nat) : Nat × Nat :=
  let posByte := pos >>> 3
  let posAlign8 := posByte <<< 3
  (pos - posAlign8, posByte)

def mask (n : Nat) (w : BitVec 8) : BitVec 8 := w &&& BitVec.ofNat 8 (1 <<< n - 1)

def outwN (n : Nat) (e : BitVec 8) (s : Stream) : Except Exn Stream := do
  let e := mask n e
  let s := ensurespace s n
  let (bits, posByte) := alignmentProperties s.pos
  let buf ←
    (if bits = 0 then update s.buf posByte e
    else do
      -- the least significant bits first
      let w ← sub s.buf posByte
      let buf ← update s.buf posByte (w ||| e <<< bits)
      if n ≤ 8 - bits then .ok buf else update buf (posByte + 1) (e >>> (8 - bits)))
  return ⟨s.pos + n, buf⟩

def getwN (n : Nat) (s : Stream) : Except Exn (BitVec 8 × Stream) :=
  if s.pos + n > capacity s.buf then .error (.fail "getwN: empty in-stream")
  else do
    let (bits, posByte) := alignmentProperties s.pos
    let e ←
      (if bits = 0 then sub s.buf posByte
      else do
        let w1 ← sub s.buf posByte
        let e1 := w1 >>> bits
        if n ≤ 8 - bits then .ok e1
        else do
          let w2 ← sub s.buf (posByte + 1)
          .ok (e1 ||| w2 <<< (8 - bits)))
    return (mask n e, { s with pos := s.pos + n })

def outw8 : BitVec 8 → Stream → Except Exn Stream := outwN 8

def getw8 : Stream → Except Exn (BitVec 8 × Stream) := getwN 8

def outGen (extract : Nat → BitVec 8) (s : Stream) : Except Exn Stream := do
  let s ← outw8 (extract 0) s
  let s ← outw8 (extract 8) s
  let s ← outw8 (extract 16) s
  outw8 (extract 24) s

def outw (w : BitVec wordSize) : Stream → Except Exn Stream := outGen fun i => wordToWord8 (w >>> i)

def outw32 : BitVec 32 → Stream → Except Exn Stream := outw

def getGen (s : Stream) : Except Exn (BitVec wordSize × Stream) := do
  let (w0, s) ← getw8 s
  let (w1, s) ← getw8 s
  let (w2, s) ← getw8 s
  let (w3, s) ← getw8 s
  return (word8ToWord w0 + word8ToWord w1 <<< 8 + word8ToWord w2 <<< 16 + word8ToWord w3 <<< 24, s)

def getw : Stream → Except Exn (BitVec wordSize × Stream) := getGen

def getw32 : Stream → Except Exn (BitVec 32 × Stream) := getGen

def outwN' (n : Nat) (w : BitVec wordSize) (s : Stream) : Except Exn Stream :=
  if n > 31 then .error (.fail "outwN'")
  else if n = 0 then .ok s
  else if n ≤ 7 then outwN n (wordToWord8 w) s
  else do
    let s ← outw8 (wordToWord8 w) s
    outwN' (n - 8) (w >>> 8) s
termination_by n

def getwN'Loop (n off : Nat) (a : BitVec wordSize) (s : Stream) :
    Except Exn (BitVec wordSize × Stream) :=
  if n = 0 then .ok (a, s)
  else if n ≤ 7 then do
    let (w8, s) ← getwN n s
    return (word8ToWord w8 <<< off ||| a, s)
  else do
    let (w8, s) ← getw8 s
    getwN'Loop (n - 8) (off + 8) (word8ToWord w8 <<< off ||| a) s
termination_by n

def getwN' (n : Nat) (s : Stream) : Except Exn (BitVec wordSize × Stream) :=
  if n > 31 then .error (.fail "getwN'") else getwN'Loop n 0 0 s

def outcw (w : BitVec wordSize) (s : Stream) : Except Exn Stream :=
  if w.toNat ≤ 254 then outw8 (wordToWord8 w) s
  else do
    let s ← outw8 255 s
    outw w s

def getcw (s : Stream) : Except Exn (BitVec wordSize × Stream) := do
  let (w, s) ← getw8 s
  if w = 255 then getw s else .ok (word8ToWord w, s)

def outcw2 (w : BitVec wordSize) (s : Stream) : Except Exn Stream :=
  if w.toNat ≤ 65279 then do
    let s ← outw8 (.ofNat 8 (w.toNat / 256)) s
    outw8 (.ofNat 8 (w.toNat % 256)) s
  else do
    let s ← outw8 255 s
    outw w s

def getcw2 (s : Stream) : Except Exn (BitVec wordSize × Stream) := do
  let (w, s) ← getw8 s
  if w = 255 then getw s
  else do
    let (w2, s) ← getw8 s
    return (word8ToWord w * 256 + word8ToWord w2, s)

-- the same at words of 32 bits
def outcw32 : BitVec 32 → Stream → Except Exn Stream := outcw

def getcw32 : Stream → Except Exn (BitVec 32 × Stream) := getcw

/-- The bytes written, and one more if the last one is full. -/
def toBytes (s : Stream) : Except Exn (List (BitVec 8)) :=
  let posByte := s.pos >>> 3
  if posByte + 1 ≤ s.buf.length then .ok (s.buf.take (posByte + 1)) else .error .subscript

def openOut : Stream := ⟨0, List.replicate 1024 0⟩

def openInBytes (buf : List (BitVec 8)) : Stream := ⟨0, buf⟩

end MLKit.Pickle
