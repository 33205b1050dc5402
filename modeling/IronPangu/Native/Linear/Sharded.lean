-- SUMMARY: The tensor-parallel linear operation computes the plain linear on every rank, whichever way each rank holds its weight.
import IronPangu.Native.Linear.Prepared

/-!
# Sharded linears

The rank's rows of the weight are `rank * localN + j`. The gathered block is
`[rank, row, column]`, and the copies bring it to `[row, column]`.
-/

namespace Inferfabric.Native.Acl

open Execution (Checked ensure)
open Buffer Session

variable {β : Type} {rt : Runtime β} {dot : List (β × β) → List (β × β) → β × β}
variable {world rank m n k localN gathered result row col : Nat}

/-! ## Views -/

/-- The elements of one row of a matrix with rows of `k` elements. -/
def rowOf (bytes : Memory β) (k r : Nat) : List (β × β) :=
  (List.range k).map fun t => element bytes ((r * k + t) * 2)

theorem grid_lt {a b i j : Nat} (hi : i < a) (hj : j < b) : i * b + j < a * b :=
  calc i * b + j < i * b + b := Nat.add_lt_add_left hj _
    _ = (i + 1) * b := (Nat.succ_mul i b).symm
    _ ≤ a * b := Nat.mul_le_mul_right b hi

theorem element_inside {p i size : Nat} (hi : i < size) : Inside ⟨p + i * 2, 2⟩ ⟨p, size * 2⟩ := by
  constructor <;> dsimp only <;> omega

/-- A view covers bytes of its storage only. -/
theorem covers_new {p rows cols a : Nat} {transpose : Bool} (h : (Tensor.new p rows cols transpose).Covers a) :
    p ≤ a ∧ a < p + rows * cols * 2 := by
  obtain ⟨i, hi, j, hj, ha⟩ := h
  cases transpose with
  | false =>
    have hlt : i * cols + j * 1 < rows * cols := by
      rw [Nat.mul_one]
      exact grid_lt hi hj
    have hinside := element_inside (p := p) hlt
    obtain ⟨hle, hend⟩ := hinside
    simp only [Tensor.address, Tensor.new, Bool.false_eq_true, if_false] at ha hle hend
    omega
  | true =>
    have hlt : i * 1 + j * cols < rows * cols := by
      rw [Nat.mul_one, Nat.add_comm]
      exact grid_lt hj hi
    obtain ⟨hle, hend⟩ := element_inside (p := p) hlt
    simp only [Tensor.address, Tensor.new, if_true] at ha hle hend
    omega

theorem row_new {memory X : Memory β} {p : Nat} (hrow : row < m)
    (hholds : ∀ i < m * k * 2, memory (p + i) = X i) : (Tensor.new p m k false).row memory row = rowOf X k row := by
  refine List.map_congr_left fun j hj => ?_
  have hj : j < k := List.mem_range.mp hj
  have hlt := grid_lt hrow hj
  have haddress : (Tensor.new p m k false).address row j = p + (row * k + j) * 2 := by
    simp [Tensor.address, Tensor.new]
  rw [haddress, element, element, Nat.add_assoc, hholds _ (by omega), hholds _ (by omega)]

theorem column_new {memory W : Memory β} {p start j : Nat} (hj : j < localN)
    (hholds : ∀ i < localN * k * 2, memory (p + i) = W (start * k * 2 + i)) :
    (Tensor.new p localN k true).column memory j = rowOf W k (start + j) := by
  refine List.map_congr_left fun i hi => ?_
  have hi : i < k := List.mem_range.mp hi
  have hlt := grid_lt hj hi
  have haddress : (Tensor.new p localN k true).address i j = p + (j * k + i) * 2 := by
    simp [Tensor.address, Tensor.new, Nat.add_comm]
  have hsource : ((start + j) * k + i) * 2 = start * k * 2 + (j * k + i) * 2 := by
    rw [Nat.add_mul start j k]
    omega
  rw [haddress, hsource, element, element, Nat.add_assoc, Nat.add_assoc, hholds _ (by omega), hholds _ (by omega)]

/-! ## Row copies -/

theorem mem_rowCopies {r : Copying.Range} : r ∈ rowCopies world m n localN gathered result ↔
    ∃ rank < world, ∃ row < m, r = ⟨gathered + (rank * m + row) * localN * 2,
      result + (row * n + rank * localN) * 2, localN * 2⟩ := by
  simp [rowCopies, eq_comm]

/-- A byte of the output and where it comes from. -/
theorem mem_pairs_rowCopies {c : Nat} (hrank : rank < world) (hrow : row < m) (hc : c < localN * 2) :
    (gathered + (rank * m + row) * localN * 2 + c, result + (row * n + rank * localN) * 2 + c) ∈
      Copying.pairs (rowCopies world m n localN gathered result) :=
  Copying.mem_pairs (mem_rowCopies.mpr ⟨rank, hrank, row, hrow, rfl⟩) hc

theorem source_lt (hrank : rank < world) (hrow : row < m) :
    (rank * m + row) * localN * 2 + localN * 2 ≤ world * (m * localN * 2) := by
  have hle := Nat.mul_le_mul_right (localN * 2) (grid_lt hrank hrow)
  rw [Nat.succ_mul] at hle
  calc (rank * m + row) * localN * 2 + localN * 2 = (rank * m + row) * (localN * 2) + localN * 2 := by
        rw [Nat.mul_assoc]
    _ ≤ world * m * (localN * 2) := hle
    _ = world * (m * localN * 2) := by rw [Nat.mul_assoc, Nat.mul_assoc m]

theorem destination_eq (hn : n = world * localN) :
    (row * n + rank * localN) * 2 = (row * world + rank) * (localN * 2) := by
  rw [hn, ← Nat.mul_assoc, ← Nat.add_mul, Nat.mul_assoc]

theorem destination_lt (hn : n = world * localN) (hrank : rank < world) (hrow : row < m) :
    (row * n + rank * localN) * 2 + localN * 2 ≤ m * n * 2 := by
  have hle := Nat.mul_le_mul_right (localN * 2) (grid_lt hrow hrank)
  rw [Nat.succ_mul] at hle
  calc (row * n + rank * localN) * 2 + localN * 2 = (row * world + rank) * (localN * 2) + localN * 2 := by
        rw [destination_eq hn]
    _ ≤ m * world * (localN * 2) := hle
    _ = m * n * 2 := by rw [hn, ← Nat.mul_assoc, ← Nat.mul_assoc]

/-- Every byte of the output is the destination of a copy. -/
theorem covered_rowCopies (hn : n = world * localN) (hlocal : 0 < localN) (hworld : 0 < world) {q : Nat}
    (hq : q < m * n * 2) :
    result + q ∈ (Copying.pairs (rowCopies world m n localN gathered result)).map Prod.snd := by
  have hblock : q / (localN * 2) < m * world := by
    rw [Nat.div_lt_iff_lt_mul (by omega)]
    calc q < m * n * 2 := hq
      _ = m * world * (localN * 2) := by rw [hn, ← Nat.mul_assoc, ← Nat.mul_assoc]
  have hrow : q / (localN * 2) / world < m := by
    rw [Nat.div_lt_iff_lt_mul hworld]
    exact hblock
  refine List.mem_map.mpr ⟨_, mem_pairs_rowCopies (Nat.mod_lt (q / (localN * 2)) hworld) hrow
    (Nat.mod_lt q (Nat.mul_pos hlocal Nat.two_pos)), ?_⟩
  dsimp only
  rw [destination_eq hn, Nat.div_add_mod', Nat.add_assoc, Nat.div_add_mod']

theorem length_rowCopies :
    (Copying.pairs (rowCopies world m n localN gathered result)).length = world * (m * (localN * 2)) := by
  simp [Copying.pairs, rowCopies, Copying.Range.pairs, List.length_flatMap, List.flatMap_assoc, List.flatMap_map]

/-- The copies write every byte of the output once. -/
theorem rowCopies_perm (hn : n = world * localN) (hlocal : 0 < localN) (hworld : 0 < world) :
    ((Copying.pairs (rowCopies world m n localN gathered result)).map Prod.snd).Perm
      ((List.range (m * n * 2)).map (result + ·)) := by
  have hnodup : ((List.range (m * n * 2)).map (result + ·)).Nodup :=
    List.nodup_range.map fun _ _ h => Nat.add_left_cancel h
  have hsubset : ((List.range (m * n * 2)).map (result + ·)) ⊆
      (Copying.pairs (rowCopies world m n localN gathered result)).map Prod.snd := by
    intro a ha
    obtain ⟨q, hq, rfl⟩ := List.mem_map.mp ha
    exact covered_rowCopies hn hlocal hworld (List.mem_range.mp hq)
  refine ((hnodup.subperm hsubset).perm_of_length_le ?_).symm
  rw [List.length_map, List.length_map, List.length_range, length_rowCopies, hn]
  exact (by rw [Nat.mul_left_comm, Nat.mul_assoc, Nat.mul_assoc] : _ = _).le

theorem apart_rowCopies (hn : n = world * localN) (hlocal : 0 < localN) (hworld : 0 < world)
    (hapart : Apart ⟨gathered, m * n * 2⟩ ⟨result, m * n * 2⟩) :
    Copying.Apart (rowCopies world m n localN gathered result) := by
  have hsize : world * (m * localN * 2) = m * n * 2 := by
    rw [hn, Nat.mul_assoc m, Nat.mul_assoc m, Nat.mul_left_comm, Nat.mul_assoc world]
  constructor
  · refine (rowCopies_perm hn hlocal hworld).nodup_iff.mpr ?_
    exact List.nodup_range.map fun _ _ h => Nat.add_left_cancel h
  · intro p hp q hq
    obtain ⟨r, hr, hp⟩ := List.mem_flatMap.mp hp
    obtain ⟨r', hr', hq⟩ := List.mem_flatMap.mp hq
    obtain ⟨rank, hrank, row, hrow, rfl⟩ := mem_rowCopies.mp hr
    obtain ⟨rank', hrank', row', hrow', rfl⟩ := mem_rowCopies.mp hr'
    obtain ⟨c, hc, hsource, -⟩ := Copying.mem_range_pairs.mp hp
    obtain ⟨c', hc', -, hdestination⟩ := Copying.mem_range_pairs.mp hq
    have hin : (rank * m + row) * localN * 2 + localN * 2 ≤ world * (m * localN * 2) := source_lt hrank hrow
    have hout := destination_lt hn hrank' hrow'
    unfold Buffer.Apart at hapart
    dsimp only at *
    omega

theorem memcpy_all (hrt : rt.Works dot) {copies : List Copying.Range} {memory : Memory β}
    (hcopies : ∀ r ∈ copies, Apart ⟨r.source, r.bytes⟩ ⟨r.destination, r.bytes⟩) :
    copies.foldl (fun memory r => rt.memcpy r memory) memory = Copying.copyAll copies memory := by
  induction copies generalizing memory with
  | nil => rfl
  | cons r copies ih =>
    rw [List.foldl_cons, hrt.memcpy r memory (hcopies r List.mem_cons_self)]
    exact ih fun r hr => hcopies r (List.mem_cons_of_mem _ hr)

/-! ## Weights -/

/-- The bytes of a weight of `n` rows of `k` elements. -/
def whole (W : Memory β) (n k : Nat) : List β := (List.range (n * k * 2)).map W

/-- A weight as a rank may hold it. -/
def HeldAs (world rank n k : Nat) (W : Memory β) (held : List β) : Prop :=
  held = whole W n k ∨ held = shardOf world rank (whole W n k)

theorem heldAs_upload {name : String} {W : Memory β} {held : List β}
    (h : upload world rank name [n, k] (whole W n k) = .ok held) : HeldAs world rank n k W held := by
  rw [upload] at h
  split at h
  · split at h
    · cases h
    · exact .inr (Except.ok.inj h).symm
  · exact .inl (Except.ok.inj h).symm

theorem shard_length {W : Memory β} (hn : n = world * localN) (hworld : 0 < world) :
    (whole W n k).length / world = localN * k * 2 := by
  rw [whole, List.length_map, List.length_range, hn, Nat.mul_assoc, Nat.mul_assoc, Nat.mul_div_cancel_left _ hworld,
    Nat.mul_assoc]

theorem shard_le (hn : n = world * localN) (hrank : rank < world) :
    rank * (localN * k * 2) + localN * k * 2 ≤ n * k * 2 := by
  have hle := Nat.mul_le_mul_right (localN * k * 2) (Nat.succ_le_of_lt hrank)
  rw [Nat.succ_mul] at hle
  exact hle.trans_eq (by rw [hn, Nat.mul_assoc world, Nat.mul_assoc world])

theorem getElem?_shardOf {W : Memory β} (hn : n = world * localN) (hrank : rank < world) {i : Nat}
    (hi : i < localN * k * 2) :
    (shardOf world rank (whole W n k))[i]? = some (W (rank * (localN * k * 2) + i)) := by
  have hle := shard_le (k := k) hn hrank
  rw [shardOf, shard_length hn (by omega), List.getElem?_take_of_lt hi, List.getElem?_drop, whole,
    List.getElem?_map, List.getElem?_range (by omega)]
  rfl

theorem length_shardOf {W : Memory β} (hn : n = world * localN) (hrank : rank < world) :
    (shardOf world rank (whole W n k)).length = localN * k * 2 := by
  have hle := shard_le (k := k) hn hrank
  rw [shardOf, shard_length hn (by omega), List.length_take, List.length_drop, whole, List.length_map,
    List.length_range]
  omega

/-! ## Ranks -/

/-- A rank before an operation: its buffers hold the input and the weight, and the output
    is apart from both. -/
structure Loaded (rt : Runtime β) (world rank m n k : Nat) (X W : Memory β) (s : Session) (memory : Memory β)
    (x w y : Nat) (held : List β) (input weight output : Buffer) : Prop where
  opened : s.Opened rt
  place : s.tpRank = rank ∧ s.tpWorld = world
  apart : Apart output input ∧ Apart output weight
  reads : s.buffers.lookup x = some input ∧ m * k * 2 ≤ input.bytes ∧
    ∀ i < m * k * 2, memory (input.ptr + i) = X i
  weighs : s.buffers.lookup w = some weight ∧ HeldAs world rank n k W held ∧ weight.bytes = held.length ∧
    ∀ (i : Nat) b, held[i]? = some b → memory (weight.ptr + i) = b
  writes : s.buffers.lookup y = some output ∧ m * n * 2 ≤ output.bytes

section Rank

variable {X W memory : Memory β} {s : Session} {x w y : Nat} {held : List β} {input weight output : Buffer}

/-- The size of the weight's buffer tells which way it is held, and the rank's rows are
    where the offset says. -/
theorem Loaded.rows (h : Loaded rt world rank m n k X W s memory x w y held input weight output)
    (hsizes : Wellformed world x w y m n k) (hrank : rank < world) :
    (weight.bytes = n * k * 2 ↔ held = whole W n k) ∧
      weightOffset s weight n k + n / world * k * 2 ≤ weight.bytes ∧
      ∀ i < n / world * k * 2, memory (weight.ptr + weightOffset s weight n k + i) = W (rank * (n / world) * k * 2 + i) := by
  obtain ⟨hlookup, hheld, hbytes, hholds⟩ := h.weighs
  have hn : n = world * (n / world) := (Nat.mul_div_cancel' (Nat.dvd_of_mod_eq_zero hsizes.divides)).symm
  generalize hlocal : n / world = localN at hn ⊢
  have hle : rank * (localN * k * 2) + localN * k * 2 ≤ n * k * 2 := shard_le hn hrank
  have hstart : rank * localN * k * 2 = rank * (localN * k * 2) := by rw [Nat.mul_assoc rank, Nat.mul_assoc rank]
  have hpositive : 0 < n * k * 2 := Nat.mul_pos (Nat.mul_pos hsizes.width.1 hsizes.depth.1) Nat.two_pos
  have hwhole : (whole W n k).length = n * k * 2 := by rw [whole, List.length_map, List.length_range]
  rcases hheld with rfl | rfl
  · rw [hwhole] at hbytes
    have hoffset : weightOffset s weight n k = rank * (localN * k * 2) := by
      rw [weightOffset, if_pos hbytes, h.place.1, h.place.2, hlocal, hstart]
    refine ⟨by simp [hbytes], by omega, fun i hi => ?_⟩
    rw [hoffset, hstart, Nat.add_assoc]
    refine hholds _ _ ?_
    rw [whole, List.getElem?_map, List.getElem?_range (by omega)]
    rfl
  · rw [length_shardOf hn hrank] at hbytes
    have hoffset : weightOffset s weight n k = 0 := by
      rw [weightOffset]
      split
      · -- Only a group of one has a slice of the whole's size.
        rename_i hsame
        have hzero : rank * (localN * k * 2) = 0 := by omega
        rw [h.place.1, h.place.2, hlocal, hstart, hzero]
      · rfl
    refine ⟨⟨fun hsame => ?_, fun hsame => ?_⟩, by omega, fun i hi => ?_⟩
    · have hzero : rank * (localN * k * 2) = 0 := by omega
      have hsize : (whole W n k).length / world = (whole W n k).length := by
        rw [shard_length hn (by omega), hwhole]
        omega
      rw [shardOf, hsize, hwhole]
      have hsame' : localN * k * 2 = n * k * 2 := by omega
      rw [← hsame', hzero, List.drop_zero, hsame', ← hwhole, List.take_length]
    · have hlength := congrArg List.length hsame
      rw [length_shardOf hn hrank, hwhole] at hlength
      omega
    · rw [hoffset, Nat.add_zero, hstart]
      exact hholds _ _ (getElem?_shardOf hn hrank hi)

theorem Loaded.placed (h : Loaded rt world rank m n k X W s memory x w y held input weight output)
    (hsizes : Wellformed world x w y m n k) (hrank : rank < world) : Placed s x w y m n k input weight output where
  input := ⟨h.reads.1, h.reads.2.1⟩
  weight := ⟨h.weighs.1, h.place.2 ▸ (h.rows hsizes hrank).2.1⟩
  output := h.writes

/-- The rank's product: its columns of every row. -/
theorem Loaded.product (h : Loaded rt world rank m n k X W s memory x w y held input weight output)
    (hsizes : Wellformed world x w y m n k) (hrt : rt.Works dot) (hrank : rank < world) {op : Linear} {p : Nat}
    (hop : Prepared s m n k input weight output op) (hout : op.out = .new p m (n / world) false)
    (hapart : Apart ⟨p, m * (n / world) * 2⟩ input ∧ Apart ⟨p, m * (n / world) * 2⟩ weight) (hrow : row < m)
    (hcol : col < n / world) :
    element (op.stage rt memory) (p + (row * (n / world) + col) * 2) =
      dot (rowOf X k row) (rowOf W k (rank * (n / world) + col)) := by
  obtain ⟨-, hweight, hrows⟩ := h.rows hsizes hrank
  have hdisjoint : ∀ a, op.out.Covers a → ¬op.a.Covers a ∧ ¬op.b.Covers a := by
    intro a ha
    rw [hout] at ha
    rw [hop.a, hop.b, h.place.2]
    obtain ⟨hle, hlt⟩ := covers_new ha
    have hinput := h.reads.2.1
    unfold Buffer.Apart at hapart
    dsimp only at hapart
    refine ⟨fun hread => ?_, fun hread => ?_⟩
    · obtain ⟨hle', hlt'⟩ := covers_new hread
      omega
    · obtain ⟨hle', hlt'⟩ := covers_new hread
      omega
  have hdot := hrt.matmul op.a op.b op.out memory (by rw [hop.a, hop.b]; rfl) (by rw [hop.a, hout]; rfl)
    (by rw [hop.b, hout, h.place.2]; rfl) (by rw [hout]; rfl) (by rw [hout]; rfl) hdisjoint row
    (by rw [hout]; exact hrow) col (by rw [hout]; exact hcol)
  have haddress : op.out.address row col = p + (row * (n / world) + col) * 2 := by
    rw [hout]
    simp [Tensor.address, Tensor.new]
  have hcolumn : op.b.column memory col = rowOf W k (rank * (n / world) + col) := by
    rw [hop.b, h.place.2]
    refine column_new hcol fun i hi => ?_
    exact hrows i hi
  rw [Linear.stage, ← haddress, hdot, hcolumn, hop.a, row_new hrow h.reads.2.2]

theorem Loaded.prepared (h : Loaded rt world rank m n k X W s memory x w y held input weight output)
    (hrt : rt.Works dot) {op : Linear} {s' : Session} (hok : linearPrepare rt s x w y m n k = .ok (op, s')) :
    Prepared s m n k input weight output op := by
  obtain ⟨-, input', weight', output', hplaced, hprepared⟩ := prepared_of_ok (h.opened.wf hrt) hrt hok
  obtain rfl := Option.some.inj (h.reads.1.symm.trans hplaced.input.1)
  obtain rfl := Option.some.inj (h.weighs.1.symm.trans hplaced.weight.1)
  obtain rfl := Option.some.inj (h.writes.1.symm.trans hplaced.output.1)
  exact hprepared

end Rank

/-! ## Groups -/

/-- The ranks of a group, each with its own session and memory. -/
structure Group (β : Type) where
  session : Nat → Session
  memory : Nat → Memory β
  x : Nat → Nat
  w : Nat → Nat
  y : Nat → Nat
  held : Nat → List β
  input : Nat → Buffer
  weight : Nat → Buffer
  output : Nat → Buffer

namespace Group

variable {g : Group β} {X W : Memory β} {ops : Nat → Linear}

/-- The operation may be asked for on every rank. -/
structure Loaded (rt : Runtime β) (g : Group β) (world m n k : Nat) (X W : Memory β) : Prop where
  sizes : ∀ rank < world, Wellformed world (g.x rank) (g.w rank) (g.y rank) m n k
  ranks : ∀ rank < world, Acl.Loaded rt world rank m n k X W (g.session rank) (g.memory rank) (g.x rank) (g.w rank)
    (g.y rank) (g.held rank) (g.input rank) (g.weight rank) (g.output rank)

/-- Every rank has prepared its operation. -/
def Prepares (rt : Runtime β) (g : Group β) (world m n k : Nat) (ops : Nat → Linear) : Prop :=
  ∀ rank < world, ∃ s',
    linearPrepare rt (g.session rank) (g.x rank) (g.w rank) (g.y rank) m n k = .ok (ops rank, s')

theorem width_eq (h : g.Loaded rt world m n k X W) (hworld : 0 < world) : n = world * (n / world) :=
  (Nat.mul_div_cancel' (Nat.dvd_of_mod_eq_zero (h.sizes 0 hworld).divides)).symm

theorem prepared (h : g.Loaded rt world m n k X W) (hrt : rt.Works dot) (hops : g.Prepares rt world m n k ops) :
    ∀ rank < world,
      Prepared (g.session rank) m n k (g.input rank) (g.weight rank) (g.output rank) (ops rank) := by
  intro rank hrank
  obtain ⟨s', hok⟩ := hops rank hrank
  exact (h.ranks rank hrank).prepared hrt hok

/-- A rank of its own multiplies into the output. -/
theorem run_alone (h : g.Loaded rt 1 m n k X W) (hrt : rt.Works dot) (hops : g.Prepares rt 1 m n k ops)
    (hrow : row < m) (hcol : col < n) :
    element (runAll rt 1 ops g.memory 0) ((g.output 0).ptr + (row * n + col) * 2) =
      dot (rowOf X k row) (rowOf W k col) := by
  have hloaded := h.ranks 0 Nat.one_pos
  have hprepared := prepared h hrt hops 0 Nat.one_pos
  have halone := hprepared.alone hloaded.place.2.le
  have hwidth : n / 1 = n := Nat.div_one n
  have hinside : Inside ⟨(g.output 0).ptr, m * n * 2⟩ (g.output 0) :=
    ⟨le_rfl, Nat.add_le_add_left hloaded.writes.2 _⟩
  have hproduct := hloaded.product (h.sizes 0 Nat.one_pos) hrt Nat.one_pos hprepared (hloaded.place.2 ▸ halone.out)
    (hwidth.symm ▸ ⟨hloaded.apart.1.inside hinside, hloaded.apart.2.inside hinside⟩) hrow (hwidth.symm ▸ hcol)
  rw [hwidth, Nat.zero_mul, Nat.zero_add] at hproduct
  have hrun : runAll rt 1 ops g.memory 0 = (ops 0).stage rt (g.memory 0) := by
    simp only [runAll, gatherAll, halone.gather, halone.copies, List.foldl_nil]
  rw [hrun]
  exact hproduct

/-- What the ranks of a group have prepared: all their parts of a row are as wide, and a
    rank's gathered block is apart from its output. -/
structure Meets (g : Group β) (world m n localN : Nat) (ops : Nat → Linear) : Prop where
  width : n = world * localN
  out : ∀ rank < world, (ops rank).out = .new (ops rank).send m localN false
  gather : ∀ rank < world, (ops rank).gather = some ⟨(ops rank).send, (ops rank).receive, m * localN⟩
  copies : ∀ rank < world, (ops rank).copies = rowCopies world m n localN (ops rank).receive (g.output rank).ptr
  scratch : ∀ rank < world, Apart ⟨(ops rank).send, m * localN * 2⟩ ⟨(ops rank).receive, m * n * 2⟩
  outside : ∀ rank < world, ∀ p ∈ (g.session rank).buffers,
    Apart ⟨(ops rank).send, m * localN * 2⟩ p.2 ∧ Apart ⟨(ops rank).receive, m * n * 2⟩ p.2

theorem meets (h : g.Loaded rt world m n k X W) (hrt : rt.Works dot) (hworld : 1 < world)
    (hops : g.Prepares rt world m n k ops) : g.Meets world m n (n / world) ops := by
  have hgrouped : ∀ rank < world, Grouped (g.session rank) m n (g.output rank) (ops rank) (ops rank).send
      (ops rank).receive ∧ (g.session rank).tpWorld = world := by
    intro rank hrank
    have hplace := (h.ranks rank hrank).place.2
    obtain ⟨localResult, gathered, hgrouped⟩ := (prepared h hrt hops rank hrank).grouped (hplace ▸ hworld)
    have hsend : (ops rank).send = localResult := by rw [Linear.send, hgrouped.gather]; rfl
    have hreceive : (ops rank).receive = gathered := by rw [Linear.receive, hgrouped.gather]; rfl
    rw [hsend, hreceive]
    exact ⟨hgrouped, hplace⟩
  constructor
  case width => exact width_eq h (Nat.zero_lt_of_lt hworld)
  all_goals
    intro rank hrank
    obtain ⟨hgrouped, hplace⟩ := hgrouped rank hrank
    rw [← hplace]
  exacts [hgrouped.out, hgrouped.gather, hgrouped.copies, hgrouped.apart, hgrouped.outside]

/-- A byte of a rank's output is the byte of the peer's product it stands for. -/
theorem run_byte {localN c peer : Nat} (hmeets : g.Meets world m n localN ops) (hrt : rt.Works dot)
    (hwrites : ∀ rank < world, (g.session rank).buffers.lookup (g.y rank) = some (g.output rank) ∧
      m * n * 2 ≤ (g.output rank).bytes)
    (hrank : rank < world) (hpeer : peer < world) (hrow : row < m) (hc : c < localN * 2) :
    runAll rt world ops g.memory rank ((g.output rank).ptr + (row * n + peer * localN) * 2 + c) =
      (ops peer).stage rt (g.memory peer) ((ops peer).send + (row * localN * 2 + c)) := by
  have hn := hmeets.width
  have hworld : 0 < world := Nat.zero_lt_of_lt hrank
  have hpositive : 0 < localN := by omega
  have hsize : world * (m * localN * 2) = m * n * 2 := by
    rw [hn, Nat.mul_assoc m, Nat.mul_assoc m, Nat.mul_left_comm, Nat.mul_assoc world]
  obtain ⟨hlookup, hfits⟩ := hwrites rank hrank
  have houtput : Buffer.Apart ⟨(ops rank).receive, m * n * 2⟩ ⟨(g.output rank).ptr, m * n * 2⟩ := by
    have hinside : Inside ⟨(g.output rank).ptr, m * n * 2⟩ (g.output rank) := ⟨le_rfl, Nat.add_le_add_left hfits _⟩
    exact ((hmeets.outside rank hrank _ (mem_of_lookup hlookup)).2.symm.inside hinside).symm
  have hdistinct := apart_rowCopies hn hpositive hworld houtput
  have hranges : ∀ r ∈ (ops rank).copies, Buffer.Apart ⟨r.source, r.bytes⟩ ⟨r.destination, r.bytes⟩ := by
    intro r hr
    rw [hmeets.copies rank hrank] at hr
    refine hdistinct.ranges (fun q hq => ?_) hr hr
    obtain ⟨_, -, _, -, rfl⟩ := mem_rowCopies.mp hq
    exact Nat.mul_pos hpositive Nat.two_pos
  have hgathered : ∀ i < m * localN * 2, gatherAll rt world ops (fun rank => (ops rank).stage rt (g.memory rank)) rank
      ((ops rank).receive + (peer * (m * localN * 2) + i)) =
        (ops peer).stage rt (g.memory peer) ((ops peer).send + i) := by
    intro i hi
    rw [gatherAll, hmeets.gather 0 hworld]
    refine hrt.allGather world (m * localN) (fun rank => (ops rank).send) (fun rank => (ops rank).receive) _ rank hrank
      (fun other hother => ?_) peer hpeer i hi
    rw [hsize]
    exact hmeets.scratch other hother
  have hinside : row * localN * 2 + c < m * localN * 2 := by
    have hlt := grid_lt hrow hc
    rwa [← Nat.mul_assoc, ← Nat.mul_assoc] at hlt
  have hsource : (peer * m + row) * localN * 2 = peer * (m * localN * 2) + row * localN * 2 := by
    rw [Nat.add_mul, Nat.add_mul, Nat.mul_assoc peer, Nat.mul_assoc peer]
  rw [runAll, memcpy_all hrt hranges, hmeets.copies rank hrank,
    Copying.copyAll_pair hdistinct (mem_pairs_rowCopies hpeer hrow hc), hsource, Nat.add_assoc, Nat.add_assoc]
  exact hgathered _ hinside

/-- In a group every rank has the elements of all ranks, in the place they have in a row. -/
theorem run_grouped (h : g.Loaded rt world m n k X W) (hrt : rt.Works dot) (hworld : 1 < world)
    (hops : g.Prepares rt world m n k ops) (hrank : rank < world) (hrow : row < m) (hcol : col < n) :
    element (runAll rt world ops g.memory rank) ((g.output rank).ptr + (row * n + col) * 2) =
      dot (rowOf X k row) (rowOf W k col) := by
  have hmeets := meets h hrt hworld hops
  have hwrites := fun rank hrank => (h.ranks rank hrank).writes
  have hpositive : 0 < n / world := by
    have hn := hmeets.width
    exact Nat.pos_of_ne_zero fun hzero => by
      rw [hzero, Nat.mul_zero] at hn
      omega
  have hpeer : col / (n / world) < world := by
    rw [Nat.div_lt_iff_lt_mul hpositive, ← hmeets.width]
    exact hcol
  have hwithin : col % (n / world) < n / world := Nat.mod_lt col hpositive
  have hcolumn : col / (n / world) * (n / world) + col % (n / world) = col := Nat.div_add_mod' col (n / world)
  generalize hpeer' : col / (n / world) = peer at hpeer hcolumn
  generalize col % (n / world) = j at hwithin hcolumn
  have hloaded := h.ranks peer hpeer
  have hproduct := hloaded.product (h.sizes peer hpeer) hrt hpeer (prepared h hrt hops peer hpeer)
    (hmeets.out peer hpeer) ⟨(hmeets.outside peer hpeer _ (mem_of_lookup hloaded.reads.1)).1,
      (hmeets.outside peer hpeer _ (mem_of_lookup hloaded.weighs.1)).1⟩ hrow hwithin
  have hread : ∀ c < 2, runAll rt world ops g.memory rank ((g.output rank).ptr + (row * n + col) * 2 + c) =
      (ops peer).stage rt (g.memory peer) ((ops peer).send + (row * (n / world) + j) * 2 + c) := by
    intro c hc
    have hbyte := run_byte hmeets hrt hwrites hrank hpeer hrow (by omega : j * 2 + c < n / world * 2)
    have hdestination : (g.output rank).ptr + (row * n + peer * (n / world)) * 2 + (j * 2 + c) =
        (g.output rank).ptr + (row * n + col) * 2 + c := by
      rw [← hcolumn]
      omega
    have hsource : (ops peer).send + (row * (n / world) * 2 + (j * 2 + c)) =
        (ops peer).send + (row * (n / world) + j) * 2 + c := by omega
    rwa [hdestination, hsource] at hbyte
  rw [hcolumn] at hproduct
  rw [← hproduct, element, element, hread 1 Nat.one_lt_two]
  exact congrArg (·, _) (hread 0 Nat.two_pos)

/-- What is true of a rank after a run of the group. -/
structure Exact (rt : Runtime β) (dot : List (β × β) → List (β × β) → β × β) (g : Group β) (world m n k : Nat)
    (X W : Memory β) (ops : Nat → Linear) (rank : Nat) : Prop where
  /-- The output is the product with the whole weight, in rows. -/
  result : ∀ row < m, ∀ col < n,
    element (runAll rt world ops g.memory rank) ((g.output rank).ptr + (row * n + col) * 2) =
      dot (rowOf X k row) (rowOf W k col)
  classified : (g.weight rank).bytes = n * k * 2 ↔ g.held rank = whole W n k
  inputs : ∀ a, (ops rank).a.Covers a → (g.input rank).ptr ≤ a ∧ a < (g.input rank).ptr + (g.input rank).bytes
  weights : ∀ a, (ops rank).b.Covers a → (g.weight rank).ptr ≤ a ∧ a < (g.weight rank).ptr + (g.weight rank).bytes
  product : world = 1 → ∀ a, (ops rank).out.Covers a →
    (g.output rank).ptr ≤ a ∧ a < (g.output rank).ptr + (g.output rank).bytes
  copies : ∀ r ∈ (ops rank).copies,
    Inside ⟨r.source, r.bytes⟩ ⟨(ops rank).receive, m * n * 2⟩ ∧ Inside ⟨r.destination, r.bytes⟩ (g.output rank)
  once : 1 < world → ((Copying.pairs (ops rank).copies).map Prod.snd).Perm
    ((List.range (m * n * 2)).map ((g.output rank).ptr + ·))

theorem exact_of_run (h : g.Loaded rt world m n k X W) (hrt : rt.Works dot) (hops : g.Prepares rt world m n k ops)
    (hrank : rank < world) : g.Exact rt dot world m n k X W ops rank := by
  have hworld : 0 < world := Nat.zero_lt_of_lt hrank
  have hloaded := h.ranks rank hrank
  have hprepared := prepared h hrt hops rank hrank
  obtain ⟨hclassified, hweight, -⟩ := hloaded.rows (h.sizes rank hrank) hrank
  have hinput := hloaded.reads.2.1
  have houtput := hloaded.writes.2
  have hone : world = 1 ∨ 1 < world := by omega
  constructor
  case classified => exact hclassified
  case result =>
    intro row hrow col hcol
    rcases hone with rfl | hmany
    · obtain rfl : rank = 0 := Nat.lt_one_iff.mp hrank
      exact run_alone h hrt hops hrow hcol
    · exact run_grouped h hrt hmany hops hrank hrow hcol
  case inputs =>
    intro a ha
    rw [hprepared.a] at ha
    obtain ⟨hle, hlt⟩ := covers_new ha
    omega
  case weights =>
    intro a ha
    rw [hprepared.b, hloaded.place.2] at ha
    obtain ⟨hle, hlt⟩ := covers_new ha
    omega
  case product =>
    rintro rfl a ha
    rw [(hprepared.alone hloaded.place.2.le).out, hloaded.place.2, Nat.div_one] at ha
    obtain ⟨hle, hlt⟩ := covers_new ha
    omega
  case copies =>
    intro r hr
    rcases hone with rfl | hmany
    · rw [(hprepared.alone hloaded.place.2.le).copies] at hr
      cases hr
    · have hmeets := meets h hrt hmany hops
      rw [hmeets.copies rank hrank] at hr
      obtain ⟨peer, hpeer, row, hrow, rfl⟩ := mem_rowCopies.mp hr
      have hin : (peer * m + row) * (n / world) * 2 + n / world * 2 ≤ world * (m * (n / world) * 2) :=
        source_lt hpeer hrow
      have hout := destination_lt hmeets.width hpeer hrow
      have hsize : world * (m * (n / world) * 2) = m * n * 2 := by
        rw [Nat.mul_assoc m, Nat.mul_left_comm, ← Nat.mul_assoc world, ← hmeets.width, Nat.mul_assoc]
      refine ⟨⟨?_, ?_⟩, ?_, ?_⟩ <;> dsimp only <;> omega
  case once =>
    intro hmany
    have hmeets := meets h hrt hmany hops
    have hpositive : 0 < n / world := Nat.div_pos (Nat.le_of_dvd (h.sizes rank hrank).width.1
      (Nat.dvd_of_mod_eq_zero (h.sizes rank hrank).divides)) hworld
    rw [hmeets.copies rank hrank]
    exact rowCopies_perm hmeets.width hpositive hworld

/-- The tensor-parallel linear is the plain one. Where every rank holds the input, and the
    weight whole or as its own rows, preparing fails for want of memory only, and a run
    leaves the product with the whole weight in the output of every rank. -/
theorem linear_exact (hrt : rt.Works dot) (h : g.Loaded rt world m n k X W) :
    (∀ rank < world,
      (∃ op s', linearPrepare rt (g.session rank) (g.x rank) (g.w rank) (g.y rank) m n k = .ok (op, s')) ∨
        ∃ heap bytes message, rt.malloc heap bytes = .error message) ∧
    ∀ ops, g.Prepares rt world m n k ops → ∀ rank < world, g.Exact rt dot world m n k X W ops rank := by
  refine ⟨fun rank hrank => ?_, fun ops hops rank hrank => exact_of_run h hrt hops hrank⟩
  have hloaded := h.ranks rank hrank
  have hsizes := h.sizes rank hrank
  exact prepare_succeeds (hloaded.place.2.symm ▸ hsizes) (hloaded.placed hsizes hrank)

end Group

/-! ## A small group -/

/-- The arithmetic of the small group: a sum of products of the low bytes. -/
def sampleDot (xs ws : List (Nat × Nat)) : Nat × Nat := (((xs.zip ws).map fun p => p.1.1 * p.2.1).sum, 0)

/-- A device with room for everything, and small numbers for bytes. -/
def sampleRuntime : Runtime Nat where
  malloc heap _ := .ok (heap.foldr (fun b top => max (b.ptr + b.bytes) top) 0)
  memcpy := Copying.copy
  matmul a b out memory := fun x =>
    if out.ptr ≤ x ∧ x < out.ptr + out.rows * out.cols * 2 then
      let q := (x - out.ptr) / 2
      let value := sampleDot (a.row memory (q / out.cols)) (b.column memory (q % out.cols))
      if (x - out.ptr) % 2 = 0 then value.1 else value.2
    else memory x
  allGather world count send receive memories rank := fun x =>
    if receive rank ≤ x ∧ x < receive rank + world * (count * 2) then
      let peer := (x - receive rank) / (count * 2)
      memories peer (send peer + (x - receive rank) % (count * 2))
    else memories rank x

theorem sampleRuntime_works : sampleRuntime.Works sampleDot where
  malloc heap bytes ptr hok b hb := by
    have htop : b.ptr + b.bytes ≤ heap.foldr (fun b top => max (b.ptr + b.bytes) top) 0 := by
      clear hok
      induction heap with
      | nil => cases hb
      | cons c heap ih =>
        rcases List.mem_cons.mp hb with rfl | hb
        · exact le_max_left _ _
        · exact (ih hb).trans (le_max_right _ _)
    right
    exact htop.trans_eq (Except.ok.inj hok)
  memcpy _ _ _ := rfl
  matmul a b out memory _ _ _ hstride hunit _ i hi j hj := by
    have hlt := grid_lt hi hj
    have hcols : 0 < out.cols := Nat.zero_lt_of_lt hj
    have haddress : out.address i j = out.ptr + (i * out.cols + j) * 2 := by
      rw [Tensor.address, hstride, hunit, Nat.mul_one]
    have hrow : (i * out.cols + j) / out.cols = i := by
      rw [Nat.mul_comm, Nat.mul_add_div hcols, Nat.div_eq_of_lt hj, Nat.add_zero]
    have hcol : (i * out.cols + j) % out.cols = j := by
      rw [Nat.mul_comm, Nat.mul_add_mod, Nat.mod_eq_of_lt hj]
    have hbyte : ∀ c < 2, sampleRuntime.matmul a b out memory (out.ptr + (i * out.cols + j) * 2 + c) =
        if c = 0 then (sampleDot (a.row memory i) (b.column memory j)).1
        else (sampleDot (a.row memory i) (b.column memory j)).2 := by
      intro c hc
      have hoffset : out.ptr + (i * out.cols + j) * 2 + c - out.ptr = (i * out.cols + j) * 2 + c := by omega
      have hquotient : ((i * out.cols + j) * 2 + c) / 2 = i * out.cols + j := by omega
      have hparity : ((i * out.cols + j) * 2 + c) % 2 = c := by omega
      simp only [sampleRuntime, hoffset, hquotient, hparity, hrow, hcol]
      rw [if_pos (by omega)]
    rw [haddress, element]
    exact Prod.ext (hbyte 0 (by decide)) (hbyte 1 (by decide))
  allGather world count send receive memories rank hrank _ peer hpeer i hi := by
    have hlt := grid_lt hpeer hi
    have hcount : 0 < count * 2 := Nat.zero_lt_of_lt hi
    have hquotient : (peer * (count * 2) + i) / (count * 2) = peer := by
      rw [Nat.mul_comm, Nat.mul_add_div hcount, Nat.div_eq_of_lt hi, Nat.add_zero]
    have hremainder : (peer * (count * 2) + i) % (count * 2) = i := by
      rw [Nat.mul_comm, Nat.mul_add_mod, Nat.mod_eq_of_lt hi]
    simp only [sampleRuntime, Nat.add_sub_cancel_left, hquotient, hremainder]
    rw [if_pos ⟨Nat.le_add_right _ _, Nat.add_lt_add_left hlt _⟩]

/-- Two ranks, of which the first holds the weight whole. -/
def sampleGroup : Group Nat where
  session rank := {
    heap := [⟨if rank = 0 then 8 else 6, 8⟩, ⟨4, if rank = 0 then 4 else 2⟩, ⟨0, 4⟩]
    buffers := [(3, ⟨if rank = 0 then 8 else 6, 8⟩), (2, ⟨4, if rank = 0 then 4 else 2⟩), (1, ⟨0, 4⟩)]
    scratchPool := []
    tpRank := rank
    tpWorld := 2
    dedicatedActivations := false
    next := 4 }
  memory rank := fun a => if a < 4 then a + 1 else if rank = 0 then a + 6 else a + 8
  x _ := 1
  w _ := 2
  y _ := 3
  held rank := if rank = 0 then [10, 11, 12, 13] else [12, 13]
  input _ := ⟨0, 4⟩
  weight rank := ⟨4, if rank = 0 then 4 else 2⟩
  output rank := ⟨if rank = 0 then 8 else 6, 8⟩

theorem sampleGroup_opened {rank : Nat} (hrank : rank < 2) : (sampleGroup.session rank).Opened sampleRuntime := by
  have hx : Opened sampleRuntime ⟨[⟨0, 4⟩], [(1, ⟨0, 4⟩)], [], rank, 2, false, 2⟩ :=
    .allocate (.new rank 2 false) (rfl : (Session.new rank 2 false).allocate sampleRuntime 4 = .ok (1, _))
  obtain rfl | rfl : rank = 0 ∨ rank = 1 := by omega
  · have hw := Opened.allocate hx (rfl : Session.allocate sampleRuntime _ 4 = .ok (2, _))
    exact Opened.allocate hw (rfl : Session.allocate sampleRuntime _ 8 = .ok (3, _))
  · have hw := Opened.allocate hx (rfl : Session.allocate sampleRuntime _ 2 = .ok (2, _))
    exact Opened.allocate hw (rfl : Session.allocate sampleRuntime _ 8 = .ok (3, _))

theorem sampleGroup_loaded : sampleGroup.Loaded sampleRuntime 2 2 2 1 (· + 1) (· + 10) where
  sizes _ _ := ⟨by decide, by decide, by decide, ⟨nofun, nofun⟩, by decide⟩
  ranks rank hrank := by
    have hopened := sampleGroup_opened hrank
    obtain rfl | rfl : rank = 0 ∨ rank = 1 := by omega
    · refine ⟨hopened, ⟨rfl, rfl⟩, ⟨.inr (by decide), .inr (by decide)⟩, ⟨rfl, by decide, by decide⟩,
        ⟨rfl, .inl rfl, rfl, fun i b hb => ?_⟩, rfl, by decide⟩
      obtain ⟨hi, rfl⟩ := List.getElem?_eq_some_iff.mp hb
      change i < 4 at hi
      interval_cases i <;> rfl
    · refine ⟨hopened, ⟨rfl, rfl⟩, ⟨.inr (by decide), .inr (by decide)⟩, ⟨rfl, by decide, by decide⟩,
        ⟨rfl, .inr rfl, rfl, fun i b hb => ?_⟩, rfl, by decide⟩
      obtain ⟨hi, rfl⟩ := List.getElem?_eq_some_iff.mp hb
      change i < 2 at hi
      interval_cases i <;> rfl

/-- The operation that is prepared on a rank of the small group. -/
def sampleOp (rank : Nat) : Linear :=
  match linearPrepare sampleRuntime (sampleGroup.session rank) 1 2 3 2 2 1 with
  | .ok (op, _) => op
  | .error _ => ⟨.new 0 0 0 false, .new 0 0 0 false, .new 0 0 0 false, none, []⟩

/-- The second rank has the elements of the first, in both rows. -/
theorem linear_exact_sample :
    (∀ rank < 2, sampleGroup.Exact sampleRuntime sampleDot 2 2 2 1 (· + 1) (· + 10) sampleOp rank) ∧
      (List.range 4).map (fun q => element (runAll sampleRuntime 2 sampleOp sampleGroup.memory 1) (6 + q * 2)) =
        [(10, 0), (12, 0), (30, 0), (36, 0)] := by
  obtain ⟨-, hexact⟩ := Group.linear_exact sampleRuntime_works sampleGroup_loaded
  refine ⟨hexact sampleOp ?_, by decide +kernel⟩
  intro rank hrank
  obtain rfl | rfl : rank = 0 ∨ rank = 1 := by omega
  · exact ⟨_, rfl⟩
  · exact ⟨_, rfl⟩

end Inferfabric.Native.Acl
