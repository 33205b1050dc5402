-- SUMMARY: The kernels that pack rows of a cache into 4- or 8-bit codes with a scale for each row, and decode them, in exact arithmetic.
import IronPangu.Lib.Rounding
import IronPangu.Lib.Stores

/-!
# Cache quantization

Addresses are computed in 32 bits where the kernels do so. Values are rationals, and
the final rounding of a decoded value is a parameter.
-/

namespace Inferfabric.Native.CacheQuantization

open Stores Rounding

/-- A `uint32_t`. -/
def u32 (x : Nat) : Nat := x % 4294967296

/-- The packed codes and the scales of a cache. -/
structure Cache where
  packed : Nat → Nat
  scales : Nat → ℚ

/-! ## Quantizing -/

def limit (bits : Nat) : Int := if bits = 8 then 127 else 7

def maximum (width : Nat) (input : Nat → ℚ) : ℚ :=
  (List.range width).foldl (fun maximum j =>
    let x := input j
    let a := if x < 0 then -x else x
    if a > maximum then a else maximum) 0

def scaleOf (width bits : Nat) (input : Nat → ℚ) : ℚ :=
  if maximum width input = 0 then 1 else maximum width input / limit bits

/-- Symmetric nearest rounding, ties away from zero. -/
def code (bits : Nat) (scale x : ℚ) : Int :=
  let q := nearest (x / scale)
  if q > limit bits then limit bits else if q < -limit bits then -limit bits else q

/-- `8 / bits` codes in a byte, the first lowest. -/
def packByte (width bits : Nat) (input : Nat → ℚ) (j : Nat) : Nat :=
  (List.range (8 / bits)).foldl (fun byte k =>
    let q := code bits (scaleOf width bits input) (input (j + k))
    (byte ||| (q % (if bits = 8 then 256 else 16)).toNat <<< (k * bits)) % 256) 0

def stride (width bits : Nat) : Nat := u32 (width * bits) / 8

/-- The values of `j` in the loop over the bytes of a row. -/
def starts (width bits : Nat) : List Nat :=
  (List.range ((width + (8 / bits - 1)) / (8 / bits))).map (· * (8 / bits))

/-- `cache_quantize_kernel` -/
def quantize (width capacity bits : Nat) (input : Nat → ℚ) (position : Int) (c : Cache) : Cache :=
  if position < 0 ∨ position ≥ capacity then c
  else
    let row := position.toNat
    { packed := storeAll ((starts width bits).map fun j =>
        (row * stride width bits + u32 (j * bits) / 8, packByte width bits input j)) c.packed
      scales := Function.update c.scales row (scaleOf width bits input) }

/-- A launch of the kernel: a row of input and its position. -/
structure Launch where
  input : Nat → ℚ
  position : Int

def quantizeAll (width capacity bits : Nat) (launches : List Launch) (c : Cache) : Cache :=
  launches.foldl (fun c l => quantize width capacity bits l.input l.position c) c

/-! ## Dequantizing -/

/-- The code at a place of a byte. -/
def unpack (bits byte j : Nat) : Int :=
  if bits = 8 then if byte ≥ 128 then (byte : Int) - 256 else byte
  else
    let q := (byte >>> (j % 2 * 4)) &&& 15
    if bits = 4 ∧ q ≥ 8 then (q : Int) - 16 else q

/-- A decoded value, before its final rounding. -/
def decode (width bits : Nat) (c : Cache) (last : Int) (row j : Nat) : ℚ :=
  let scale := if row ≤ last then c.scales row else 0
  let q := if row ≤ last then
    unpack bits (c.packed (u32 (u32 (row * stride width bits) + u32 (j * bits) / 8))) j else 0
  q * scale

/-- The rows of a core: `none` where the loop has not ended. -/
def coreRows (capacity cores : Nat) : Nat → Nat → Option (List Nat)
  | 0, _ => none
  | fuel + 1, row =>
    if row < capacity then (coreRows capacity cores fuel (u32 (row + cores))).map (row :: ·) else some []

/-- The values of all cores in the order they are written, whatever that is. -/
def Order (width capacity cores : Nat) (order : List (Nat × Nat)) : Prop :=
  ∃ rows : Nat → List Nat, (∀ core < cores, ∃ fuel, coreRows capacity cores fuel core = some (rows core)) ∧
    order.Perm ((List.range cores).flatMap fun core =>
      (rows core).flatMap fun row => (List.range width).map fun j => (row, j))

/-- `cache_dequantize_kernel`, with the final rounding `write`. -/
def dequantize {γ : Type} (write : ℚ → γ) (width bits : Nat) (c : Cache) (last : Int) (order : List (Nat × Nat))
    (output : Nat → γ) : Nat → γ :=
  storeAll (order.map fun (row, j) => (u32 (u32 (row * width) + j), write (decode width bits c last row j))) output

end Inferfabric.Native.CacheQuantization
