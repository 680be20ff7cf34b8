import Mathlib.Data.List.Basic
import Mathlib.Logic.Function.Iterate

/-!
# Coding a stream piece by piece

A stream coder takes its input in pieces, may be asked to put out at any time what it
holds back, and ends its output when it is closed. It is lawful when the whole output
decodes to the whole input, wherever the pieces were cut.
-/

set_option autoImplicit false

namespace OsmMini.Foundations

/-- A coder with a state of its own; every operation yields a part of the output. -/
structure StreamCoder where
  State : Type
  start : State
  write : State → List UInt8 → State × List UInt8
  flush : State → State × List UInt8
  close : State → List UInt8
  decode : List UInt8 → Option (List UInt8)

namespace StreamCoder

variable {coder : StreamCoder}

/-- A new coder that has put out `output` is in state `s` after the input `input`. -/
inductive Coded (coder : StreamCoder) : coder.State → List UInt8 → List UInt8 → Prop
  | start : Coded coder coder.start [] []
  | write {s : coder.State} {input output : List UInt8} (data : List UInt8) :
      Coded coder s input output →
        Coded coder (coder.write s data).1 (input ++ data) (output ++ (coder.write s data).2)
  | flush {s : coder.State} {input output : List UInt8} :
      Coded coder s input output → Coded coder (coder.flush s).1 input (output ++ (coder.flush s).2)

/-- The whole output of a closed coder decodes to its whole input. -/
def Lawful (coder : StreamCoder) : Prop :=
  ∀ s input output, Coded coder s input output →
    coder.decode (output ++ coder.close s) = some input

end StreamCoder

end OsmMini.Foundations

/-!
## The cyclic redundancy check of 32 bits

The checksum with the reflected IEEE polynomial. It can be computed piece by piece.
-/

namespace OsmMini.Foundations

/-- Shift one bit out of the register. -/
def crcShift (c : UInt32) : UInt32 :=
  if c &&& 1 = 1 then (c >>> 1) ^^^ 0xEDB88320 else c >>> 1

def crcByte (c : UInt32) (b : UInt8) : UInt32 :=
  crcShift^[8] (c ^^^ b.toUInt32)

/-- Add bytes to a checksum. -/
def crcUpdate (crc : UInt32) (bytes : List UInt8) : UInt32 :=
  ~~~(bytes.foldl crcByte (~~~crc))

def crc32 (bytes : List UInt8) : UInt32 := crcUpdate 0 bytes

theorem crcUpdate_append (crc : UInt32) (first second : List UInt8) :
    crcUpdate crc (first ++ second) = crcUpdate (crcUpdate crc first) second := by
  rw [crcUpdate, crcUpdate, crcUpdate, List.foldl_append, UInt32.not_not]

/-- The published check value: the checksum of the digits from 1 to 9. -/
example : crc32 [49, 50, 51, 52, 53, 54, 55, 56, 57] = 0xCBF43926 := by decide +kernel

end OsmMini.Foundations
