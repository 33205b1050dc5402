-- SUMMARY: Packed cache rows round-trip: what is decoded for a row is what was last quantized there, within half a scale.
import IronPangu.Lib.Paging
import IronPangu.Native.CacheQuantization

/-!
# The round trip of a row

A row of codes takes `width * bits / 8` bytes, so rows do not meet while that product
and the addresses fit in 32 bits.
-/

namespace Inferfabric.Native.CacheQuantization

open Stores Rounding

variable {width capacity bits row j : Nat} {input : Nat → ℚ} {x : ℚ}

/-! ## Scales and codes -/

theorem u32_of_lt {n : Nat} (h : n < 4294967296) : u32 n = n := Nat.mod_eq_of_lt h

theorem limit_pos : (0 : ℚ) < limit bits := by
  unfold limit
  split <;> norm_num

theorem maximum_succ : maximum (width + 1) input = max (maximum width input) |input width| := by
  have habs : (if input width < 0 then -input width else input width) = |input width| := by
    split
    · rename_i hneg
      exact (abs_of_neg hneg).symm
    · rename_i hnonneg
      exact (abs_of_nonneg (not_lt.mp hnonneg)).symm
  rw [maximum, List.range_succ, List.foldl_append]
  simp only [List.foldl_cons, List.foldl_nil, habs]
  change (if |input width| > maximum width input then |input width| else maximum width input) = _
  split
  · rename_i hgt
    exact (max_eq_right hgt.le).symm
  · rename_i hle
    exact (max_eq_left (not_lt.mp hle)).symm

/-- The maximum is at least every magnitude of the row. -/
theorem abs_le_maximum (input : Nat → ℚ) (hj : j < width) : |input j| ≤ maximum width input := by
  induction width with
  | zero => cases hj
  | succ width ih =>
    rw [maximum_succ]
    rcases Nat.lt_succ_iff_lt_or_eq.mp hj with hj | rfl
    · exact (ih hj).trans (le_max_left _ _)
    · exact le_max_right _ _

theorem maximum_nonneg : 0 ≤ maximum width input := by
  cases width with
  | zero => exact le_rfl
  | succ width =>
    rw [maximum_succ]
    exact (abs_nonneg _).trans (le_max_right _ _)

theorem scale_pos (width bits : Nat) (input : Nat → ℚ) : 0 < scaleOf width bits input := by
  unfold scaleOf
  split
  · exact one_pos
  · rename_i hne
    exact div_pos (lt_of_le_of_ne maximum_nonneg (Ne.symm hne)) limit_pos

/-- No value is further out than the largest code. -/
theorem abs_div_scale_le (bits : Nat) (input : Nat → ℚ) (hj : j < width) : |input j / scaleOf width bits input| ≤ limit bits := by
  have hle := abs_le_maximum input hj
  rw [abs_div, abs_of_pos (scale_pos width bits input), div_le_iff₀ (scale_pos width bits input), scaleOf]
  split
  · rename_i hzero
    rw [hzero] at hle
    exact hle.trans (by rw [mul_one]; exact limit_pos.le)
  · rwa [mul_div_cancel₀ _ limit_pos.ne']

/-- The bounds on a code are never reached by clamping. -/
theorem code_eq (hj : j < width) : code bits (scaleOf width bits input) (input j) =
    nearest (input j / scaleOf width bits input) := by
  have hle := abs_le.mp (abs_nearest_le (abs_div_scale_le bits input hj))
  unfold code
  dsimp only
  rw [if_neg (by omega), if_neg (by omega)]

theorem abs_code_le (bits : Nat) (scale x : ℚ) : |code bits scale x| ≤ limit bits := by
  have hpos : 0 ≤ limit bits := by
    unfold limit
    split <;> decide
  rw [abs_le]
  unfold code
  dsimp only
  split
  · omega
  · split <;> omega

/-- A code times its scale is within half a scale of the value. -/
theorem abs_code_sub_le (hj : j < width) :
    |(code bits (scaleOf width bits input) (input j) : ℚ) * scaleOf width bits input - input j| ≤
      scaleOf width bits input / 2 := by
  have hscale := scale_pos width bits input
  rw [code_eq hj]
  generalize scaleOf width bits input = scale at hscale ⊢
  calc |(nearest (input j / scale) : ℚ) * scale - input j|
      = |((nearest (input j / scale) : ℚ) - input j / scale) * scale| := by
        rw [sub_mul, div_mul_cancel₀ _ hscale.ne']
    _ = |(nearest (input j / scale) : ℚ) - input j / scale| * scale := by rw [abs_mul, abs_of_pos hscale]
    _ ≤ 1 / 2 * scale := mul_le_mul_of_nonneg_right (abs_nearest_sub _) hscale.le
    _ = scale / 2 := by ring

/-- A value of the largest magnitude is exact. -/
theorem code_maximum (hj : j < width) (hmax : |input j| = maximum width input) :
    (code bits (scaleOf width bits input) (input j) : ℚ) * scaleOf width bits input = input j := by
  have hscale := scale_pos width bits input
  have hinteger : ∃ n : Int, input j / scaleOf width bits input = n := by
    rw [scaleOf]
    split
    · rename_i hzero
      rw [hzero, abs_eq_zero] at hmax
      exact ⟨0, by simp [hmax]⟩
    · rename_i hne
      rcases abs_choice (input j) with hpos | hneg
      · refine ⟨limit bits, ?_⟩
        rw [← hmax, hpos, div_div_eq_mul_div, mul_div_cancel_left₀ _ (by rwa [← hpos, hmax])]
      · refine ⟨-limit bits, ?_⟩
        have hx : input j = -maximum width input := by rw [← hmax, hneg, neg_neg]
        rw [hx, div_div_eq_mul_div, neg_mul, neg_div, mul_div_cancel_left₀ _ hne, Int.cast_neg]
  obtain ⟨n, hn⟩ := hinteger
  rw [code_eq hj, hn, nearest_intCast, ← hn, div_mul_cancel₀ _ hscale.ne']

/-! ## Bytes -/

theorem nibbles : ∀ low < 16, ∀ high < 16, (low ||| high <<< 4) % 256 < 256 ∧
    ((low ||| high <<< 4) % 256) >>> 0 &&& 15 = low ∧ ((low ||| high <<< 4) % 256) >>> 4 &&& 15 = high := by
  decide

/-- A nibble stands for the signed code it was cut from. -/
theorem signed_nibble {q : Int} (hq : |q| ≤ 7) : (if (q % 16).toNat ≥ 8 then ((q % 16).toNat : Int) - 16
    else (q % 16).toNat) = q := by
  rw [abs_le] at hq
  split <;> omega

theorem packByte_eight (j : Nat) : packByte width 8 input j =
    (code 8 (scaleOf width 8 input) (input j) % 256).toNat := by
  have hlt : (code 8 (scaleOf width 8 input) (input j) % 256).toNat < 256 := by omega
  simp [packByte, List.range_succ, Nat.mod_eq_of_lt hlt]

theorem packByte_four (j : Nat) : packByte width 4 input j =
    ((code 4 (scaleOf width 4 input) (input j) % 16).toNat |||
      (code 4 (scaleOf width 4 input) (input (j + 1)) % 16).toNat <<< 4) % 256 := by
  have hlt : (code 4 (scaleOf width 4 input) (input j) % 16).toNat < 256 := by omega
  simp [packByte, List.range_succ, Nat.mod_eq_of_lt hlt]

/-- A code is found where it was packed. -/
theorem unpack_packByte (hbits : bits = 4 ∨ bits = 8) {k : Nat} (hk : k < 8 / bits) (hstart : j % (8 / bits) = 0) :
    unpack bits (packByte width bits input j) (j + k) = code bits (scaleOf width bits input) (input (j + k)) := by
  rcases hbits with rfl | rfl
  · have hcode := fun x => abs_code_le 4 (scaleOf width 4 input) x
    change k < 2 at hk
    change j % 2 = 0 at hstart
    obtain ⟨-, hlow, hhigh⟩ := nibbles (code 4 (scaleOf width 4 input) (input j) % 16).toNat (by omega)
      (code 4 (scaleOf width 4 input) (input (j + 1)) % 16).toNat (by omega)
    rw [packByte_four, unpack, if_neg (by decide)]
    obtain rfl | rfl : k = 0 ∨ k = 1 := by omega
    · have hplace : (j + 0) % 2 * 4 = 0 := by omega
      simp only [hplace, hlow, true_and]
      exact signed_nibble (hcode _)
    · have hplace : (j + 1) % 2 * 4 = 4 := by omega
      simp only [hplace, hhigh, true_and]
      exact signed_nibble (hcode _)
  · have hcode := abs_le.mp (abs_code_le 8 (scaleOf width 8 input) (input j))
    change k < 1 at hk
    obtain rfl : k = 0 := by omega
    rw [packByte_eight, unpack, if_pos rfl, Nat.add_zero]
    change -127 ≤ _ ∧ _ ≤ 127 at hcode
    split <;> omega

/-! ## Rows -/

/-- The sizes the kernels keep apart: everything they multiply fits in 32 bits. -/
structure Sized (width capacity bits : Nat) : Prop where
  kind : bits = 4 ∨ bits = 8
  even : width % 2 = 0
  values : capacity * width < 4294967296
  narrow : width * bits < 4294967296

theorem Sized.stride (h : Sized width capacity bits) : stride width bits = width * bits / 8 := by
  rw [CacheQuantization.stride, u32_of_lt h.narrow]

/-- The `g`th byte of a row starts with the value `g * (8 / bits)`. -/
theorem Sized.starts (h : Sized width capacity bits) :
    starts width bits = (List.range (width * bits / 8)).map (· * (8 / bits)) := by
  have heven := h.even
  have hcount : (width + (8 / bits - 1)) / (8 / bits) = width * bits / 8 := by
    rcases h.kind with rfl | rfl
    · change (width + 1) / 2 = width * 4 / 8
      omega
    · change (width + 0) / 1 = width * 8 / 8
      omega
  rw [CacheQuantization.starts, hcount]

theorem Sized.start_byte (h : Sized width capacity bits) {g : Nat} (hg : g < width * bits / 8) :
    u32 (g * (8 / bits) * bits) / 8 = g := by
  have hnarrow := h.narrow
  rcases h.kind with rfl | rfl
  · change u32 (g * 2 * 4) / 8 = g
    rw [u32_of_lt (by omega)]
    omega
  · change u32 (g * 1 * 8) / 8 = g
    rw [u32_of_lt (by omega)]
    omega

/-- The value `j` is in the byte `j * bits / 8`, behind the ones before it. -/
theorem Sized.place (h : Sized width capacity bits) (hj : j < width) :
    u32 (j * bits) / 8 = j * bits / 8 ∧ j * bits / 8 < width * bits / 8 ∧ j % (8 / bits) < 8 / bits ∧
      j * bits / 8 * (8 / bits) + j % (8 / bits) = j := by
  have hnarrow := h.narrow
  have heven := h.even
  rcases h.kind with rfl | rfl
  · change _ ∧ _ ∧ j % 2 < 2 ∧ j * 4 / 8 * 2 + j % 2 = j
    rw [u32_of_lt (by omega)]
    omega
  · change _ ∧ _ ∧ j % 1 < 1 ∧ j * 8 / 8 * 1 + j % 1 = j
    rw [u32_of_lt (by omega)]
    omega

/-- The bytes of one row, where a launch stores them. -/
def rowStores (width bits row : Nat) (input : Nat → ℚ) : List (Nat × Nat) :=
  (List.range (width * bits / 8)).map fun g =>
    (row * (width * bits / 8) + g, packByte width bits input (g * (8 / bits)))

theorem Sized.quantize (h : Sized width capacity bits) (hrow : row < capacity) (c : Cache) :
    quantize width capacity bits input row c =
      ⟨storeAll (rowStores width bits row input) c.packed,
        Function.update c.scales row (scaleOf width bits input)⟩ := by
  have hinside : ¬((row : Int) < 0 ∨ (row : Int) ≥ capacity) := by omega
  have hstores : (CacheQuantization.starts width bits).map (fun j =>
      (row * CacheQuantization.stride width bits + u32 (j * bits) / 8, packByte width bits input j)) = rowStores width bits row input := by
    rw [h.starts, h.stride, List.map_map]
    refine List.map_congr_left fun g hg => ?_
    simp only [Function.comp_apply, h.start_byte (List.mem_range.mp hg)]
  rw [CacheQuantization.quantize, if_neg hinside]
  dsimp only
  rw [Int.toNat_natCast, hstores]

theorem storeAll_rowStores_other {a : Nat} {memory : Nat → Nat}
    (ha : a < row * (width * bits / 8) ∨ (row + 1) * (width * bits / 8) ≤ a) :
    storeAll (rowStores width bits row input) memory a = memory a := by
  refine storeAll_other fun store hstore => ?_
  obtain ⟨g, hg, rfl⟩ := List.mem_map.mp hstore
  have hg := List.mem_range.mp hg
  rw [Nat.succ_mul] at ha
  dsimp only
  omega

theorem storeAll_rowStores {g : Nat} {memory : Nat → Nat} (hg : g < width * bits / 8) :
    storeAll (rowStores width bits row input) memory (row * (width * bits / 8) + g) =
      packByte width bits input (g * (8 / bits)) := by
  refine storeAll_mem ?_ (List.mem_map.mpr ⟨g, List.mem_range.mpr hg, rfl⟩)
  rw [rowStores, List.map_map]
  exact List.nodup_range.map fun _ _ heq => Nat.add_left_cancel heq

/-- A launch outside the cache changes nothing. -/
theorem quantize_outside {position : Int} (h : position < 0 ∨ position ≥ capacity) (c : Cache) :
    quantize width capacity bits input position c = c := by
  rw [quantize, if_pos h]

/-- Two caches with the same row. -/
structure SameRow (width bits row : Nat) (c c' : Cache) : Prop where
  scale : c'.scales row = c.scales row
  packed : ∀ a, row * (width * bits / 8) ≤ a → a < (row + 1) * (width * bits / 8) → c'.packed a = c.packed a

theorem SameRow.refl (c : Cache) : SameRow width bits row c c := ⟨rfl, fun _ _ _ => rfl⟩

theorem SameRow.trans {c c' c'' : Cache} (h : SameRow width bits row c c') (h' : SameRow width bits row c' c'') :
    SameRow width bits row c c'' :=
  ⟨h'.scale.trans h.scale, fun a hle hlt => (h'.packed a hle hlt).trans (h.packed a hle hlt)⟩

/-- A launch elsewhere leaves a row alone. -/
theorem Sized.sameRow (h : Sized width capacity bits) {position : Int} (hne : position ≠ row) (c : Cache) :
    SameRow width bits row c (CacheQuantization.quantize width capacity bits input position c) := by
  by_cases hin : position < 0 ∨ position ≥ capacity
  · rw [quantize_outside hin]
    exact .refl c
  · obtain ⟨other, rfl⟩ : ∃ other : Nat, position = other := ⟨position.toNat, by omega⟩
    have hother : other ≠ row := fun heq => hne (congrArg _ heq)
    rw [h.quantize (by omega)]
    refine ⟨Function.update_of_ne hother.symm _ _, fun a hle hlt => storeAll_rowStores_other ?_⟩
    rcases Nat.lt_or_gt_of_ne hother with hbefore | hafter
    · exact .inr ((Nat.mul_le_mul_right _ hbefore).trans hle)
    · exact .inl (hlt.trans_le (Nat.mul_le_mul_right _ hafter))

theorem Sized.sameRow_all (h : Sized width capacity bits) {launches : List Launch}
    (hne : ∀ l ∈ launches, l.position ≠ row) (c : Cache) :
    SameRow width bits row c (quantizeAll width capacity bits launches c) := by
  induction launches generalizing c with
  | nil => exact .refl c
  | cons l launches ih =>
    exact (h.sameRow (hne l List.mem_cons_self) c).trans (ih (fun l' hl' => hne l' (List.mem_cons_of_mem _ hl')) _)

/-- What was last quantized in a row is still there after any launches elsewhere. -/
theorem Sized.written (h : Sized width capacity bits) {before after : List Launch} {l : Launch}
    (hrow : row < capacity) (hposition : l.position = row) (hlast : ∀ l' ∈ after, l'.position ≠ row) (c : Cache) :
    (quantizeAll width capacity bits (before ++ l :: after) c).scales row = scaleOf width bits l.input ∧
      ∀ g < width * bits / 8,
        (quantizeAll width capacity bits (before ++ l :: after) c).packed (row * (width * bits / 8) + g) =
          packByte width bits l.input (g * (8 / bits)) := by
  have hsplit : quantizeAll width capacity bits (before ++ l :: after) c =
      quantizeAll width capacity bits after (CacheQuantization.quantize width capacity bits l.input row
        (quantizeAll width capacity bits before c)) := by
    simp only [quantizeAll, List.foldl_append, List.foldl_cons, hposition]
  rw [hsplit, h.quantize hrow]
  obtain ⟨hscale, hpacked⟩ := h.sameRow_all hlast ⟨storeAll (rowStores width bits row l.input)
    (quantizeAll width capacity bits before c).packed, Function.update
    (quantizeAll width capacity bits before c).scales row (scaleOf width bits l.input)⟩
  refine ⟨hscale.trans (Function.update_self _ _ _), fun g hg => ?_⟩
  rw [hpacked _ (Nat.le_add_right _ _) (by rw [Nat.succ_mul]; exact Nat.add_lt_add_left hg _)]
  exact storeAll_rowStores hg

/-! ## Decoding -/

/-- The byte a value is decoded from. -/
theorem Sized.address (h : Sized width capacity bits) (hrow : row < capacity) (hj : j < width) :
    u32 (u32 (row * CacheQuantization.stride width bits) + u32 (j * bits) / 8) =
      row * (width * bits / 8) + j * bits / 8 := by
  obtain ⟨hplace, hbyte, -⟩ := h.place hj
  have hstride : width * bits / 8 ≤ width := by
    rcases h.kind with rfl | rfl <;> omega
  have hfits : row * (width * bits / 8) + j * bits / 8 < 4294967296 :=
    calc row * (width * bits / 8) + j * bits / 8 < row * (width * bits / 8) + width * bits / 8 :=
          Nat.add_lt_add_left hbyte _
      _ = (row + 1) * (width * bits / 8) := (Nat.succ_mul _ _).symm
      _ ≤ capacity * width := Nat.mul_le_mul hrow hstride
      _ < 4294967296 := h.values
  rw [h.stride, hplace, u32_of_lt ((Nat.le_add_right _ _).trans_lt hfits), u32_of_lt hfits]

/-- The codes a launch stored are unpacked again. -/
theorem Sized.unpack (h : Sized width capacity bits) {before after : List Launch} {l : Launch}
    (hrow : row < capacity) (hposition : l.position = row) (hlast : ∀ l' ∈ after, l'.position ≠ row) (c : Cache)
    (hj : j < width) :
    unpack bits ((quantizeAll width capacity bits (before ++ l :: after) c).packed
      (row * (width * bits / 8) + j * bits / 8)) j = code bits (scaleOf width bits l.input) (l.input j) := by
  obtain ⟨-, hpacked⟩ : (quantizeAll width capacity bits (before ++ l :: after) c).scales row = _ ∧ _ :=
    h.written hrow hposition hlast c
  obtain ⟨-, hbyte, hwithin, hvalue⟩ := h.place hj
  have hunpack : CacheQuantization.unpack bits (packByte width bits l.input (j * bits / 8 * (8 / bits)))
      (j * bits / 8 * (8 / bits) + j % (8 / bits)) = _ :=
    unpack_packByte h.kind hwithin (Nat.mul_mod_left (j * bits / 8) (8 / bits))
  rwa [hvalue, ← hpacked _ hbyte] at hunpack

/-- A row up to the last position decodes to its codes and its scale. -/
theorem Sized.decode (h : Sized width capacity bits) {before after : List Launch} {l : Launch} {last : Int}
    (hrow : row < capacity) (hposition : l.position = row) (hlast : ∀ l' ∈ after, l'.position ≠ row) (c : Cache)
    (hle : row ≤ last) (hj : j < width) :
    decode width bits (quantizeAll width capacity bits (before ++ l :: after) c) last row j =
      code bits (scaleOf width bits l.input) (l.input j) * scaleOf width bits l.input := by
  have hscale : (quantizeAll width capacity bits (before ++ l :: after) c).scales row = _ :=
    (h.written hrow hposition hlast c).1
  simp only [CacheQuantization.decode, if_pos hle, h.address hrow hj, h.unpack hrow hposition hlast c hj, hscale]

/-- A row above the last position decodes to zero. -/
theorem decode_above {c : Cache} {last : Int} (h : last < row) : decode width bits c last row j = 0 := by
  simp [decode, not_le.mpr h]

/-! ## Cores -/

section
variable {cores fuel : Nat} {rows : List Nat} {order : List (Nat × Nat)}

/-- A core takes every `cores`th row from its first on. -/
theorem coreRows_eq (hcores : 0 < cores) (hfit : capacity + cores ≤ 4294967296)
    (h : coreRows capacity cores fuel row = some rows) :
    rows.Nodup ∧ ∀ r, r ∈ rows ↔ r < capacity ∧ ∃ k, r = row + k * cores := by
  induction fuel generalizing row rows with
  | zero => cases h
  | succ fuel ih =>
    rw [coreRows] at h
    split at h
    · rename_i hrow
      obtain ⟨rest, hrest, rfl⟩ := Option.map_eq_some_iff.mp h
      obtain ⟨hnodup, hmem⟩ := ih hrest
      rw [u32_of_lt (by omega)] at hmem
      refine ⟨List.nodup_cons.mpr ⟨fun hin => ?_, hnodup⟩, fun r => ?_⟩
      · obtain ⟨-, k, heq⟩ := (hmem row).mp hin
        omega
      · rw [List.mem_cons, hmem]
        constructor
        · rintro (rfl | ⟨hlt, k, rfl⟩)
          · exact ⟨hrow, 0, by omega⟩
          · exact ⟨hlt, k + 1, by rw [Nat.succ_mul]; omega⟩
        · rintro ⟨hlt, k, rfl⟩
          cases k with
          | zero => exact .inl (by omega)
          | succ k => exact .inr ⟨hlt, k, by rw [Nat.succ_mul]; omega⟩
    · rename_i hrow
      obtain rfl := (Option.some.inj h).symm
      refine ⟨List.nodup_nil, fun r => ⟨fun hin => (List.not_mem_nil hin).elim, ?_⟩⟩
      rintro ⟨hlt, k, rfl⟩
      omega

/-- The loop of a core ends. -/
theorem coreRows_ends (hcores : 0 < cores) (hfit : capacity + cores ≤ 4294967296) (row : Nat) :
    ∃ fuel rows, coreRows capacity cores fuel row = some rows := by
  induction hleft : capacity - row using Nat.strong_induction_on generalizing row with
  | _ left ih =>
    by_cases hrow : row < capacity
    · obtain ⟨fuel, rows, hrows⟩ := ih (capacity - (row + cores)) (by omega) (row + cores) rfl
      exact ⟨fuel + 1, row :: rows, by rw [coreRows, if_pos hrow, u32_of_lt (by omega), hrows]; rfl⟩
    · exact ⟨1, [], by rw [coreRows, if_neg hrow]⟩

/-- The cores share the rows: each row has one core, the remainder of the row. -/
theorem rows_perm {rows : Nat → List Nat} (hcores : 0 < cores) (hfit : capacity + cores ≤ 4294967296)
    (h : ∀ core < cores, ∃ fuel, coreRows capacity cores fuel core = some (rows core)) :
    ((List.range cores).flatMap rows).Perm (List.range capacity) := by
  have hspec : ∀ core < cores, (rows core).Nodup ∧ ∀ r, r ∈ rows core ↔ r < capacity ∧ ∃ k, r = core + k * cores := by
    intro core hcore
    obtain ⟨fuel, hrows⟩ := h core hcore
    exact coreRows_eq hcores hfit hrows
  have hcore : ∀ core < cores, ∀ r ∈ rows core, r % cores = core := by
    intro core hlt r hr
    obtain ⟨-, k, rfl⟩ := ((hspec core hlt).2 r).mp hr
    rw [Nat.add_mul_mod_self_right, Nat.mod_eq_of_lt hlt]
  refine (List.perm_ext_iff_of_nodup ?_ List.nodup_range).mpr fun r => ?_
  · refine List.nodup_flatMap.mpr ⟨fun core hlt => (hspec core (List.mem_range.mp hlt)).1, ?_⟩
    refine List.nodup_range.pairwise_of_forall_ne fun core hlt core' hlt' hne r hr hr' => hne ?_
    rw [← hcore core (List.mem_range.mp hlt) r hr, ← hcore core' (List.mem_range.mp hlt') r hr']
  · rw [List.mem_flatMap, List.mem_range]
    constructor
    · rintro ⟨core, hlt, hr⟩
      exact (((hspec core (List.mem_range.mp hlt)).2 r).mp hr).1
    · intro hr
      have hlt := Nat.mod_lt r hcores
      exact ⟨r % cores, List.mem_range.mpr hlt,
        ((hspec _ hlt).2 r).mpr ⟨hr, r / cores, by rw [Nat.mul_comm]; exact (Nat.mod_add_div r cores).symm⟩⟩

theorem Order.perm (hcores : 0 < cores) (hfit : capacity + cores ≤ 4294967296)
    (h : Order width capacity cores order) : order.Perm (List.range capacity ×ˢ List.range width) := by
  obtain ⟨rows, hrows, hperm⟩ := h
  rw [← List.flatMap_assoc] at hperm
  exact hperm.trans ((rows_perm hcores hfit hrows).flatMap_right _)

theorem Order.exists (hcores : 0 < cores) (hfit : capacity + cores ≤ 4294967296) :
    ∃ order, Order width capacity cores order := by
  choose fuel rows hrows using coreRows_ends hcores hfit
  exact ⟨_, rows, fun core _ => ⟨fuel core, hrows core⟩, List.Perm.refl _⟩

/-- Every value of the output is its decoded value, in any order of the cores. -/
theorem Sized.output {γ : Type} {write : ℚ → γ} {output : Nat → γ} {c : Cache} {last : Int}
    (h : Sized width capacity bits) (hcores : 0 < cores) (hfit : capacity + cores ≤ 4294967296)
    (horder : Order width capacity cores order) (hrow : row < capacity) (hj : j < width) :
    dequantize write width bits c last order output (row * width + j) =
      write (CacheQuantization.decode width bits c last row j) := by
  have hperm := horder.perm hcores hfit
  have haddress : ∀ r < capacity, ∀ k < width, u32 (u32 (r * width) + k) = r * width + k := by
    intro r hr k hk
    have hfits : r * width + k < 4294967296 :=
      calc r * width + k < r * width + width := Nat.add_lt_add_left hk _
        _ = (r + 1) * width := (Nat.succ_mul _ _).symm
        _ ≤ capacity * width := Nat.mul_le_mul_right _ hr
        _ < 4294967296 := h.values
    rw [u32_of_lt ((Nat.le_add_right _ _).trans_lt hfits), u32_of_lt hfits]
  refine storeAll_mem ?_ (List.mem_map.mpr ⟨(row, j), hperm.mem_iff.mpr ?_, ?_⟩)
  · rw [List.map_map]
    refine List.Nodup.map_on ?_ (hperm.nodup_iff.mpr (List.nodup_range.product List.nodup_range))
    rintro ⟨r, k⟩ hin ⟨r', k'⟩ hin' heq
    obtain ⟨hr, hk⟩ := List.mem_product.mp (hperm.mem_iff.mp hin)
    obtain ⟨hr', hk'⟩ := List.mem_product.mp (hperm.mem_iff.mp hin')
    rw [List.mem_range] at hr hk hr' hk'
    simp only [Function.comp_apply, haddress r hr k hk, haddress r' hr' k' hk'] at heq
    obtain ⟨rfl, rfl⟩ := Paging.flat_injective hk hk' heq
    rfl
  · exact List.mem_product.mpr ⟨List.mem_range.mpr hrow, List.mem_range.mpr hj⟩
  · simp only [haddress row hrow j hj]

end

/-! ## The round trip -/

/-- What a launch changes: nothing outside the cache, else the bytes and the scale of its row. -/
structure Changes (width capacity bits : Nat) (l : Launch) (c c' : Cache) : Prop where
  outside : l.position < 0 ∨ l.position ≥ capacity → c' = c
  inside : ∀ row < capacity, l.position = row →
    (∀ a, a < row * (width * bits / 8) ∨ (row + 1) * (width * bits / 8) ≤ a → c'.packed a = c.packed a) ∧
      ∀ r, r ≠ row → c'.scales r = c.scales r

/-- What is decoded at a place of a row is what `l` stored there, up to half a scale. -/
structure Recovered {γ : Type} (write : ℚ → γ) (width bits : Nat) (c : Cache) (l : Launch) (row j : Nat) (value : γ) : Prop where
  scale : c.scales row = scaleOf width bits l.input
  code : unpack bits (c.packed (row * (width * bits / 8) + j * bits / 8)) j =
    code bits (scaleOf width bits l.input) (l.input j)
  value : value = write (CacheQuantization.code bits (scaleOf width bits l.input) (l.input j) *
    scaleOf width bits l.input)
  near : |(CacheQuantization.code bits (scaleOf width bits l.input) (l.input j) : ℚ) *
    scaleOf width bits l.input - l.input j| ≤ scaleOf width bits l.input / 2
  exact : |l.input j| = maximum width l.input →
    (CacheQuantization.code bits (scaleOf width bits l.input) (l.input j) : ℚ) * scaleOf width bits l.input = l.input j

theorem Sized.changes (h : Sized width capacity bits) (l : Launch) (c : Cache) :
    Changes width capacity bits l c (CacheQuantization.quantize width capacity bits l.input l.position c) where
  outside hout := quantize_outside hout c
  inside row hrow hposition := by
    rw [hposition, h.quantize hrow]
    exact ⟨fun a ha => storeAll_rowStores_other ha, fun r hne => Function.update_of_ne hne _ _⟩

theorem Sized.recovered {γ : Type} {write : ℚ → γ} {before after : List Launch} {l : Launch} {last : Int}
    (h : Sized width capacity bits) (hrow : row < capacity) (hposition : l.position = row)
    (hlast : ∀ l' ∈ after, l'.position ≠ row) (c : Cache) (hle : row ≤ last) (hj : j < width) :
    Recovered write width bits (quantizeAll width capacity bits (before ++ l :: after) c) l row j
      (write (CacheQuantization.decode width bits (quantizeAll width capacity bits (before ++ l :: after) c) last row j)) where
  scale := (h.written hrow hposition hlast c).1
  code := h.unpack hrow hposition hlast c hj
  value := congrArg write (h.decode hrow hposition hlast c hle hj)
  near := abs_code_sub_le hj
  exact := code_maximum hj

/-- Cache rows round-trip: launches keep to their rows, and dequantizing recovers for each row
what was quantized there last, whatever the order of the cores. -/
theorem cache_roundtrip {γ : Type} (write : ℚ → γ) (output : Nat → γ) {cores : Nat} (h : Sized width capacity bits)
    (hcores : 0 < cores) (hfit : capacity + cores ≤ 4294967296) (launches : List Launch) (c : Cache) (last : Int) :
    (∀ l c, Changes width capacity bits l c (quantize width capacity bits l.input l.position c)) ∧
    (∀ scale x, |code bits scale x| ≤ limit bits) ∧
    (∃ order, Order width capacity cores order) ∧
    ∀ order, Order width capacity cores order →
      order.Perm (List.range capacity ×ˢ List.range width) ∧
      ∀ row < capacity, ∀ j < width,
        let stored := quantizeAll width capacity bits launches c
        let value := dequantize write width bits stored last order output (row * width + j)
        (last < row → value = write 0) ∧
        ∀ (before : List Launch) (l : Launch) (after : List Launch), launches = before ++ l :: after →
          l.position = row → (∀ l' ∈ after, l'.position ≠ row) → row ≤ last → Recovered write width bits stored l row j value := by
  refine ⟨h.changes, abs_code_le bits, Order.exists hcores hfit, fun order horder => ⟨horder.perm hcores hfit, ?_⟩⟩
  intro row hrow j hj
  dsimp only
  rw [h.output hcores hfit horder hrow hj]
  refine ⟨fun habove => by rw [decode_above habove], ?_⟩
  rintro before l after rfl hposition hlast hle
  exact h.recovered hrow hposition hlast c hle hj

/-- Two rows of two 4-bit values, the second written twice. -/
theorem cache_roundtrip_pair :
    let launches : List Launch := [⟨fun _ => 5, 1⟩, ⟨fun _ => 3, 7⟩, ⟨fun j => if j = 0 then 1 else -2, 1⟩]
    ∃ order, Order 2 2 32 order ∧
      Recovered id 2 4 (quantizeAll 2 2 4 launches ⟨fun _ => 0, fun _ => 0⟩) ⟨fun j => if j = 0 then 1 else -2, 1⟩ 1 0
        (dequantize id 2 4 (quantizeAll 2 2 4 launches ⟨fun _ => 0, fun _ => 0⟩) 1 order (fun _ => 0) 2) := by
  intro launches
  obtain ⟨-, -, ⟨order, horder⟩, hall⟩ := cache_roundtrip id (fun _ => 0)
    (⟨.inl rfl, by decide, by decide, by decide⟩ : Sized 2 2 4) (by decide : 0 < 32) (by decide) launches
    ⟨fun _ => 0, fun _ => 0⟩ 1
  obtain ⟨-, hrows⟩ := hall order horder
  obtain ⟨-, hrecovered⟩ := hrows 1 (by decide) 0 (by decide)
  exact ⟨order, horder, hrecovered [⟨fun _ => 5, 1⟩, ⟨fun _ => 3, 7⟩] _ [] rfl rfl (by simp) (by decide)⟩

/-! ## A stride that wraps -/

theorem maximum_zero (width : Nat) : maximum width (fun _ => 0) = 0 := by
  induction width with
  | zero => rfl
  | succ width ih => rw [maximum_succ, ih, abs_zero, max_self]

/-- Where the stride is zero, every row is written over the first. -/
theorem quantize_wide (hstride : stride width 8 = 0) (hwidth : width * 8 ≤ 4294967296) (hpos : 0 < width)
    (hrow : row < capacity) (c : Cache) : (quantize width capacity 8 (fun _ => 0) row c).packed 0 = 0 := by
  have hinside : ¬((row : Int) < 0 ∨ (row : Int) ≥ capacity) := by omega
  have hstarts : starts width 8 = List.range width := by
    rw [starts]
    norm_num
  have haddress : ∀ j < width, u32 (j * 8) / 8 = j := by
    intro j hj
    rw [u32_of_lt (by omega)]
    omega
  have hzero : packByte width 8 (fun _ => 0) 0 = 0 := by
    have hcode : code 8 1 0 = 0 := by
      have hnearest : nearest (0 : ℚ) = 0 := by simpa using nearest_intCast (α := ℚ) 0
      simp [code, hnearest, limit]
    rw [packByte_eight, scaleOf, if_pos (maximum_zero width), hcode]
    rfl
  rw [quantize, if_neg hinside]
  dsimp only
  rw [hstarts, hstride]
  refine storeAll_mem ?_ (List.mem_map.mpr ⟨0, List.mem_range.mpr hpos, ?_⟩)
  · rw [List.map_map]
    refine List.Nodup.map_on (fun j hj k hk heq => ?_) List.nodup_range
    simpa only [Function.comp_apply, Nat.mul_zero, Nat.zero_add, haddress j (List.mem_range.mp hj),
      haddress k (List.mem_range.mp hk)] using heq
  · rw [hzero]
    rfl

/-- At `width * bits = 2 ^ 32` a launch at the second row writes into the first. -/
theorem quantize_not_row : ¬∀ (width capacity bits : Nat) (l : Launch) (c : Cache), bits = 4 ∨ bits = 8 →
    width % 2 = 0 → capacity * width < 4294967296 →
    Changes width capacity bits l c (quantize width capacity bits l.input l.position c) := by
  intro hchanges
  have hbyte := ((hchanges 536870912 2 8 ⟨fun _ => 0, 1⟩ ⟨fun _ => 1, fun _ => 0⟩ (.inr rfl) (by decide)
    (by decide)).inside 1 (by decide) rfl).1 0 (.inl (by decide))
  have hzero : (quantize 536870912 2 8 (fun _ => 0) (1 : Nat) ⟨fun _ => 1, fun _ => 0⟩).packed 0 = 0 :=
    quantize_wide (by decide) (by decide) (by decide) (by decide) _
  exact absurd (hzero.symm.trans hbyte) (by decide)

end Inferfabric.Native.CacheQuantization
