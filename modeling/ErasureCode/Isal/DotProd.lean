import ErasureCode.Core.Writes
import ErasureCode.Isal.Nibble

/-!
# The vector encoders

`ec_encode_data` is dispatched to one of five functions when it is first called:
`ec_encode_data_base`, or the encoder for the instruction set the processor has
(`lib/isa-l/erasure_code/ec_multibinary.asm:83-87`). These take six rows at a time,
with kernels for one to six rows (`lib/isa-l/erasure_code/ec_highlevel_func.c`).

The kernels differ in the size of their registers and in how they look nibbles up.
Each makes a register of every row at a time, from all sources; when `len` is not a
multiple of the register's size, it goes over the last `len - w` to `len` bytes
once more (`gfNvectDotProd`).

`ecEncodeDataOn_eq`: whichever function is called, the memory is the same
afterwards.
-/
namespace ErasureCode.Isal

open ErasureCode.Core

variable {N w : Nat}

/-! ## The kernels -/

/-- A round of `.next_vect`: the products of source `j` at `pos` are added to the
sums of all rows. -/
def nextVect (m : LaneMul w) (rows vec : Nat) (g_tbls : Vector UInt8 N) (tbl : Nat) (src : Nat → Option Ptr)
    (pos : Nat) (mem : Mem) (j : Nat) (xp : Vector (Vector UInt8 w) rows) : Option (Vector (Vector UInt8 w) rows) := do
  let x0 ← movdqu w mem ((← src j).add pos)
  let parts := m.split x0
  forUp 0 rows xp fun r xp => do
    let xgft ← movdquTbl 32 g_tbls (tbl + r * (vec * 32) + j * 32)
    wr xp r (pxor (cell xp r) (m.lookup xgft parts))

/-- The loop body at `pos`: the sums of all sources, of which there is at least
one, and their stores in the order `order`. -/
def dotProdAt (m : LaneMul w) (rows : Nat) (order : List Nat) (vec : Nat) (g_tbls : Vector UInt8 N) (tbl : Nat)
    (src dest : Nat → Option Ptr) (pos : Nat) (mem : Mem) : Option Mem := do
  let xp ← nextVect m rows vec g_tbls tbl src pos mem 0 (Vector.replicate rows (broadcastb w 0))
  let xp ← forUp 1 vec xp fun j xp => nextVect m rows vec g_tbls tbl src pos mem j xp
  run (fun r mem => do movdqust mem ((← dest r).add pos) (cell xp r)) order mem

/-- `len`, `vec`, the tables and where they start in `g_tbls`, the pointers to the
sources and to the destinations; the result is 1 for a `len` that is too small. -/
abbrev Kernel (N : Nat) :=
  Nat → Nat → Vector UInt8 N → Nat → (Nat → Option Ptr) → (Nat → Option Ptr) → Mem → Option (Mem × Nat)

def gfNvectDotProd (m : LaneMul w) (rows : Nat) (order : List Nat) : Kernel N := fun len vec g_tbls tbl src dest mem => do
  if len < w then return (mem, 1)
  let at_ := dotProdAt m rows order vec g_tbls tbl src dest
  return (← blockLoop w len at_ (fun _ => at_ (len - w)) (len / w) 0 mem, 0)

/-- mirrors lib/isa-l/erasure_code/gf_vect_dot_prod_sse.asm:198-262 -/
def gfVectDotProdSse : Kernel N := gfNvectDotProd mulSse 1 [0]
/-- mirrors lib/isa-l/erasure_code/gf_2vect_dot_prod_sse.asm:243-331 -/
def gf2vectDotProdSse : Kernel N := gfNvectDotProd mulSse 2 [0, 1]
def gf3vectDotProdSse : Kernel N := gfNvectDotProd mulSse 3 [0, 1, 2]
def gf4vectDotProdSse : Kernel N := gfNvectDotProd mulSse 4 [0, 1, 2, 3]
def gf5vectDotProdSse : Kernel N := gfNvectDotProd mulSse 5 [0, 1, 2, 3, 4]
def gf6vectDotProdSse : Kernel N := gfNvectDotProd mulSse 6 [0, 1, 2, 3, 4, 5]

/-! The AVX kernels are the SSE kernels, with three operands. -/

def gfVectDotProdAvx : Kernel N := gfNvectDotProd mulSse 1 [0]
def gf2vectDotProdAvx : Kernel N := gfNvectDotProd mulSse 2 [0, 1]
def gf3vectDotProdAvx : Kernel N := gfNvectDotProd mulSse 3 [0, 1, 2]
def gf4vectDotProdAvx : Kernel N := gfNvectDotProd mulSse 4 [0, 1, 2, 3]
def gf5vectDotProdAvx : Kernel N := gfNvectDotProd mulSse 5 [0, 1, 2, 3, 4]
def gf6vectDotProdAvx : Kernel N := gfNvectDotProd mulSse 6 [0, 1, 2, 3, 4, 5]

def gfVectDotProdAvx2 : Kernel N := gfNvectDotProd mulAvx2 1 [0]
def gf2vectDotProdAvx2 : Kernel N := gfNvectDotProd mulAvx2 2 [0, 1]
def gf3vectDotProdAvx2 : Kernel N := gfNvectDotProd mulAvx2 3 [0, 1, 2]
/-- mirrors lib/isa-l/erasure_code/gf_4vect_dot_prod_avx2.asm:306-455 -/
def gf4vectDotProdAvx2 : Kernel N := gfNvectDotProd mulAvx2Swapped 4 [0, 1, 2, 3]
def gf5vectDotProdAvx2 : Kernel N := gfNvectDotProd mulAvx2Swapped 5 [0, 1, 2, 3, 4]
def gf6vectDotProdAvx2 : Kernel N := gfNvectDotProd mulAvx2Swapped 6 [0, 1, 2, 3, 4, 5]

def gfVectDotProdAvx512 : Kernel N := gfNvectDotProd mulAvx512 1 [0]
def gf2vectDotProdAvx512 : Kernel N := gfNvectDotProd mulAvx512 2 [0, 1]
def gf3vectDotProdAvx512 : Kernel N := gfNvectDotProd mulAvx512 3 [0, 1, 2]
def gf4vectDotProdAvx512 : Kernel N := gfNvectDotProd mulAvx512 4 [0, 1, 2, 3]
def gf5vectDotProdAvx512 : Kernel N := gfNvectDotProd mulAvx512 5 [0, 1, 2, 3, 4]
/-- It stores the first row after the fifth. -/
def gf6vectDotProdAvx512 : Kernel N := gfNvectDotProd mulAvx512 6 [1, 2, 3, 4, 0, 5]

/-! ## The encoders -/

/-- Six rows at a time, and the rest by the kernel for that many.
mirrors lib/isa-l/erasure_code/ec_highlevel_func.c:41-66 -/
def encodeGroups (kernel : Nat → Kernel N) (len k : Nat) (g_tbls : Vector UInt8 N) (data : Nat → Option Ptr) :
    Nat → Nat → (Nat → Option Ptr) → Mem → Option Mem
  | rows + 6, tbl, coding, mem => do
    let r ← kernel 6 len k g_tbls tbl data coding mem
    encodeGroups kernel len k g_tbls data rows (tbl + 6 * k * 32) (fun l => coding (l + 6)) r.1
  | 0, _, _, mem => some mem
  | rows + 1, tbl, coding, mem => do return (← kernel (rows + 1) len k g_tbls tbl data coding mem).1

/-- Which instruction set. -/
inductive Isa
  | base | sse | avx | avx2 | avx512

def dotProdSse : Nat → Kernel N
  | 1 => gfVectDotProdSse
  | 2 => gf2vectDotProdSse
  | 3 => gf3vectDotProdSse
  | 4 => gf4vectDotProdSse
  | 5 => gf5vectDotProdSse
  | _ => gf6vectDotProdSse

def dotProdAvx : Nat → Kernel N
  | 1 => gfVectDotProdAvx
  | 2 => gf2vectDotProdAvx
  | 3 => gf3vectDotProdAvx
  | 4 => gf4vectDotProdAvx
  | 5 => gf5vectDotProdAvx
  | _ => gf6vectDotProdAvx

def dotProdAvx2 : Nat → Kernel N
  | 1 => gfVectDotProdAvx2
  | 2 => gf2vectDotProdAvx2
  | 3 => gf3vectDotProdAvx2
  | 4 => gf4vectDotProdAvx2
  | 5 => gf5vectDotProdAvx2
  | _ => gf6vectDotProdAvx2

def dotProdAvx512 : Nat → Kernel N
  | 1 => gfVectDotProdAvx512
  | 2 => gf2vectDotProdAvx512
  | 3 => gf3vectDotProdAvx512
  | 4 => gf4vectDotProdAvx512
  | 5 => gf5vectDotProdAvx512
  | _ => gf6vectDotProdAvx512

section
variable (len k rows : Nat) (g_tbls : Vector UInt8 N) (data coding : Nat → Option Ptr) (mem : Mem)

/-- mirrors lib/isa-l/erasure_code/ec_highlevel_func.c:33-68 -/
def ecEncodeDataSse : Option Mem :=
  if len < 16 then ecEncodeData len k rows g_tbls data coding mem
  else encodeGroups dotProdSse len k g_tbls data rows 0 coding mem

/-- mirrors lib/isa-l/erasure_code/ec_highlevel_func.c:70-104 -/
def ecEncodeDataAvx : Option Mem :=
  if len < 16 then ecEncodeData len k rows g_tbls data coding mem
  else encodeGroups dotProdAvx len k g_tbls data rows 0 coding mem

/-- mirrors lib/isa-l/erasure_code/ec_highlevel_func.c:106-141 -/
def ecEncodeDataAvx2 : Option Mem :=
  if len < 32 then ecEncodeData len k rows g_tbls data coding mem
  else encodeGroups dotProdAvx2 len k g_tbls data rows 0 coding mem

/-- mirrors lib/isa-l/erasure_code/ec_highlevel_func.c:170-204 -/
def ecEncodeDataAvx512 : Option Mem :=
  if len < 64 then ecEncodeData len k rows g_tbls data coding mem
  else encodeGroups dotProdAvx512 len k g_tbls data rows 0 coding mem

/-- The function that `ec_encode_data` is dispatched to.
mirrors lib/isa-l/erasure_code/ec_multibinary.asm:84 -/
def ecEncodeDataOn (isa : Isa) : Option Mem :=
  match isa with
  | .base => ecEncodeData len k rows g_tbls data coding mem
  | .sse => ecEncodeDataSse len k rows g_tbls data coding mem
  | .avx => ecEncodeDataAvx len k rows g_tbls data coding mem
  | .avx2 => ecEncodeDataAvx2 len k rows g_tbls data coding mem
  | .avx512 => ecEncodeDataAvx512 len k rows g_tbls data coding mem

end

/-! ## What a kernel writes -/

/-- The first `c` tables are tables that `gf_vect_mul_init` makes. -/
def Expanded (v : Vector UInt8 N) (c : Nat) : Prop :=
  ∀ x, x < c * 32 → cell v x = tableByte (cell v (x / 32 * 32 + 1)) (x % 32)

/-- As `ec_init_tables` leaves them. -/
theorem expanded_of_tables {v : Vector UInt8 N} {c : Nat} {f : Nat → UInt8}
    (h : ∀ x, x < c * 32 → cell v x = tableByte (f (x / 32)) (x % 32)) : Expanded v c := fun x hx => by
  rw [h x hx, h (x / 32 * 32 + 1) (by omega), show (x / 32 * 32 + 1) / 32 = x / 32 by omega,
    show (x / 32 * 32 + 1) % 32 = 1 by omega, tableByte_one]

/-- Tables over the first `c` of others. -/
theorem Expanded.overwrite {v v' : Vector UInt8 N} {c d : Nat} {f : Nat → UInt8} (h : Expanded v d)
    (hv : ∀ x, cell v' x = if x < c * 32 then tableByte (f (x / 32)) (x % 32) else cell v x) : Expanded v' d := by
  intro x hx
  by_cases hc : x < c * 32
  · exact expanded_of_tables (c := c) (f := f) (fun y hy => by rw [hv, if_pos hy]) x hc
  · rw [hv, if_neg hc, hv (x / 32 * 32 + 1), if_neg (by omega)]
    exact h x hx

/-- A call of an encoder: the tables are those that `ec_init_tables` makes, the
sources are not written, and `T` gives the destinations their bytes. The indices
into the tables are `int` products in the source, which fit when the tables are
below 2^31 bytes. -/
structure Job (mem : Mem) (len srcs dests : Nat) (v : Vector UInt8 N) (src dest : Nat → Option Ptr) (sp dp : Nat → Ptr)
    (T : Ptr → UInt8) : Prop where
  room : dests * srcs * 32 ≤ N
  expanded : Expanded v (dests * srcs)
  src : ∀ j, j < srcs → src j = some (sp j)
  dest : ∀ l, l < dests → dest l = some (dp l)
  windows : Windows mem srcs dests len sp dp
  target : Target v srcs dests 0 len sp dp mem T

/-- The bytes of `rows` destinations from row `l₀` on at positions that satisfy `P`. -/
def GroupCells (l₀ rows : Nat) (dp : Nat → Ptr) (P : Nat → Prop) (q : Ptr) : Prop :=
  ∃ p, P p ∧ ∃ r, r < rows ∧ q = (dp (r + l₀)).add p

section
variable {mem t : Mem} {len srcs dests l₀ rows : Nat} {v : Vector UInt8 N} {src dest : Nat → Option Ptr}
  {sp dp : Nat → Ptr} {T : Ptr → UInt8} {D : Ptr → Prop} {m : LaneMul w}

/-- Where the table for a row and a source is. -/
theorem table_pos (l₀ r srcs j : Nat) :
    l₀ * srcs * 32 + r * (srcs * 32) + j * 32 = ((r + l₀) * srcs + j) * 32 := by
  ring

/-- The 32 bytes of a table. -/
theorem Expanded.table (h : Expanded v (dests * srcs)) (hroom : dests * srcs * 32 ≤ N) {l j : Nat} (hl : l < dests)
    (hj : j < srcs) : Returns (movdquTbl 32 v ((l * srcs + j) * 32)) fun xgft =>
      ∀ b, b < 32 → cell xgft b = tableByte (coef v srcs l j) b := by
  have hpos : l * srcs + j < dests * srcs := pos_lt hl hj
  refine (movdquTbl_spec (w := 32) (v := v) (by omega)).mono fun xgft hx b hb => ?_
  rw [hx b hb, h _ (by omega), coef, show ((l * srcs + j) * 32 + b) / 32 * 32 + 1 = j * 32 + l * srcs * 32 + 1 by omega,
    show ((l * srcs + j) * 32 + b) % 32 = b by omega]

/-- Writes to the destinations leave the sources alone. -/
theorem Job.source (c : Job mem len srcs dests v src dest sp dp T) (ht : Written mem t D T)
    (hD : ∀ q, D q → DestCells dests 0 len dp q) {j p : Nat} (hj : j < srcs) (hp : p < len) :
    byteAt t ((sp j).add p) = byteAt mem ((sp j).add p) := by
  refine ht.byteAt_frame fun hd => ?_
  obtain ⟨l, hl, i, -, hi, e⟩ := hD _ hd
  exact c.windows.disj j hj l hl p hp i hi e

/-- The sums of the first `j` sources. -/
def Sums (mem : Mem) (srcs l₀ rows w : Nat) (v : Vector UInt8 N) (sp : Nat → Ptr) (pos j : Nat)
    (xp : Vector (Vector UInt8 w) rows) : Prop :=
  ∀ r, r < rows → ∀ i, i < w → cell (cell xp r) i =
    dotBytes j (coef v srcs (r + l₀)) fun j => byteAt mem ((sp j).add (pos + i))

theorem nextVect_spec (hm : m.Multiplies) (c : Job mem len srcs dests v src dest sp dp T) (hl : l₀ + rows ≤ dests)
    (ht : Written mem t D T) (hD : ∀ q, D q → DestCells dests 0 len dp q) {pos j : Nat} (hpos : pos + w ≤ len)
    (hj : j < srcs) {xp : Vector (Vector UInt8 w) rows} (hxp : Sums mem srcs l₀ rows w v sp pos j xp) :
    Returns (nextVect m rows srcs v (l₀ * srcs * 32) src pos t j xp) (Sums mem srcs l₀ rows w v sp pos (j + 1)) := by
  have hvalid : Valid t ((sp j).add pos) w := fun i hi => by
    rw [Ptr.add_add]
    exact ht.isSome (c.windows.src j hj _ (by omega))
  unfold nextVect
  rw [c.src j hj, Option.bind_eq_bind, Option.bind_some]
  refine (movdqu_spec hvalid).bind fun x0 hx0 => ?_
  -- the rows below `n` have source `j`
  refine (Returns.forUp (fun n xp => ∀ r, r < rows → ∀ i, i < w → cell (cell xp r) i =
    dotBytes (if r < n then j + 1 else j) (coef v srcs (r + l₀)) fun j => byteAt mem ((sp j).add (pos + i)))
    (Nat.zero_le rows) (fun r hr i hi => hxp r hr i hi) fun n xp _ hn h => ?_).mono fun xp h r hr i hi => by
      rw [h r hr i hi, if_pos hr]
  rw [table_pos]
  refine (c.expanded.table c.room (by omega) hj).bind fun xgft hxgft => ?_
  rw [wr_eq xp hn]
  refine returns_some fun r hr i hi => ?_
  by_cases hrn : r = n
  · subst hrn
    rw [cell_upd_self _ hn, cell_pxor _ _ hi, h r hr i hi, hm _ _ _ hxgft i hi, hx0 i hi, Ptr.add_add,
      c.source ht hD hj (by omega), if_neg (Nat.lt_irrefl r), if_pos (Nat.lt_succ_self r), dotBytes_succ]
  · rw [cell_upd_ne _ (Ne.symm hrn), h r hr i hi]
    by_cases hlt : r < n
    · rw [if_pos hlt, if_pos (by omega)]
    · rw [if_neg hlt, if_neg (by omega)]

theorem dotProdAt_spec (hm : m.Multiplies) (c : Job mem len srcs dests v src dest sp dp T) (hsrcs : 0 < srcs)
    (hl : l₀ + rows ≤ dests) {order : List Nat} (horder : ∀ r, r ∈ order ↔ r < rows) (ht : Written mem t D T)
    (hD : ∀ q, D q → DestCells dests 0 len dp q) {pos : Nat} (hpos : pos + w ≤ len) :
    Returns (dotProdAt m rows order srcs v (l₀ * srcs * 32) src (fun r => dest (r + l₀)) pos t) fun t' =>
      Written t t' (GroupCells l₀ rows dp fun p => pos ≤ p ∧ p < pos + w) T := by
  unfold dotProdAt
  have hzero : Sums mem srcs l₀ rows w v sp pos 0 (Vector.replicate rows (broadcastb w 0)) := fun r hr i hi => by
    rw [show cell (Vector.replicate rows (broadcastb w 0)) r = broadcastb w 0 by simp [cell, hr], cell_broadcastb hi]
    rfl
  refine (nextVect_spec hm c hl ht hD hpos hsrcs hzero).bind fun xp hxp => ?_
  refine (Returns.forUp (Sums mem srcs l₀ rows w v sp pos) hsrcs hxp fun j xp _ hj hxp =>
    nextVect_spec hm c hl ht hD hpos hj hxp).bind fun xp hxp => ?_
  refine (run_written (W := fun r q => ∃ i, i < w ∧ q = ((dp (r + l₀)).add pos).add i) (T := T)
    fun r hr u E hu => ?_).mono fun t' h => h.congr fun q => ?_
  · have hrr := (horder r).1 hr
    simp only [c.dest (r + l₀) (by omega), Option.bind_eq_bind, Option.bind_some]
    refine movdqust_spec (fun i hi => ?_) fun i hi => ?_
    · rw [Ptr.add_add]
      exact hu.isSome (ht.isSome (c.windows.dest _ (by omega) _ (by omega)))
    · rw [hxp r hrr i hi, Ptr.add_add, c.target _ (by omega) _ (Nat.zero_le _) (by omega)]
  · constructor
    · rintro ⟨r, hr, i, hi, rfl⟩
      exact ⟨pos + i, ⟨by omega, by omega⟩, r, (horder r).1 hr, Ptr.add_add _ _ _⟩
    · rintro ⟨p, ⟨h1, h2⟩, r, hr, rfl⟩
      exact ⟨r, (horder r).2 hr, p - pos, by omega, by rw [Ptr.add_add, Nat.add_sub_cancel' h1]⟩

/-- A register of every row. -/
theorem groupCells_round {pos : Nat} {q : Ptr} : GroupCells l₀ rows dp (fun p => pos ≤ p ∧ p < pos + w) q ↔
    ∃ i, i < w ∧ ∃ r, r < rows ∧ q = (dp (r + l₀)).add (pos + i) := by
  constructor
  · rintro ⟨p, ⟨h1, h2⟩, hq⟩
    exact ⟨p - pos, by omega, by rwa [Nat.add_sub_cancel' h1]⟩
  · rintro ⟨i, hi, hq⟩
    exact ⟨pos + i, ⟨by omega, by omega⟩, hq⟩

/-- The first six rows, and the rest. -/
theorem groupCells_six {P : Nat → Prop} {q : Ptr} :
    GroupCells l₀ 6 dp P q ∨ GroupCells (l₀ + 6) rows dp P q ↔ GroupCells l₀ (rows + 6) dp P q := by
  constructor
  · rintro (⟨p, hp, r, hr, rfl⟩ | ⟨p, hp, r, hr, rfl⟩)
    · exact ⟨p, hp, r, by omega, rfl⟩
    · exact ⟨p, hp, r + 6, by omega, by rw [Nat.add_assoc, Nat.add_comm 6 l₀]⟩
  · rintro ⟨p, hp, r, hr, rfl⟩
    by_cases h6 : r < 6
    · exact .inl ⟨p, hp, r, h6, rfl⟩
    · exact .inr ⟨p, hp, r - 6, by omega, by rw [show r - 6 + (l₀ + 6) = r + l₀ by omega]⟩

/-- All rows. -/
theorem groupCells_zero (q : Ptr) : GroupCells 0 rows dp (fun p => p < len) q ↔ DestCells rows 0 len dp q := by
  constructor
  · rintro ⟨p, hp, l, hl, rfl⟩
    exact ⟨l, hl, p, Nat.zero_le p, hp, rfl⟩
  · rintro ⟨l, hl, p, -, hp, rfl⟩
    exact ⟨p, hp, l, hl, rfl⟩

theorem groupCells_dest (hl : l₀ + rows ≤ dests) {P : Nat → Prop} (hP : ∀ p, P p → p < len) {q : Ptr}
    (h : GroupCells l₀ rows dp P q) : DestCells dests 0 len dp q := by
  obtain ⟨p, hp, r, hr, rfl⟩ := h
  exact ⟨r + l₀, by omega, p, Nat.zero_le p, hP p hp, rfl⟩

/-- **A kernel** writes its rows. -/
theorem gfNvectDotProd_spec (hm : m.Multiplies) (hw : 0 < w) (hlen : w ≤ len)
    (c : Job mem len srcs dests v src dest sp dp T) (hsrcs : 0 < srcs) (hl : l₀ + rows ≤ dests) {order : List Nat}
    (horder : ∀ r, r ∈ order ↔ r < rows) (ht : Written mem t D T) (hD : ∀ q, D q → DestCells dests 0 len dp q) :
    Returns (gfNvectDotProd m rows order len srcs v (l₀ * srcs * 32) src (fun r => dest (r + l₀)) t) fun x =>
      x.2 = 0 ∧ Written t x.1 (GroupCells l₀ rows dp fun p => p < len) T := by
  unfold gfNvectDotProd
  rw [if_neg (Nat.not_lt.2 hlen)]
  have hsub : ∀ {P : Nat → Prop} {q : Ptr}, (∀ p, P p → p < len) → (∃ p, P p ∧ ∃ r, r < rows ∧ q = (dp (r + l₀)).add p) →
      DestCells dests 0 len dp q := fun hP h => groupCells_dest hl hP h
  refine (blockLoop_written (W := fun p q => ∃ r, r < rows ∧ q = (dp (r + l₀)).add p) (T := T) hw hlen
    (fun pos u hpos hu => ?_) fun pos u _ hpos hend hu => ?_).bind fun u hu => returns_some ⟨rfl, hu⟩
  · have hall : ∀ q, (D q ∨ ∃ p, p < pos ∧ ∃ r, r < rows ∧ q = (dp (r + l₀)).add p) → DestCells dests 0 len dp q :=
      fun q hq => hq.elim (hD q) (hsub fun p hp => by omega)
    exact (dotProdAt_spec hm c hsrcs hl horder (ht.trans hu) hall hpos).mono fun u' hu' =>
      hu'.congr fun q => groupCells_round
  · have hall : ∀ q, (D q ∨ ∃ p, p < pos ∧ ∃ r, r < rows ∧ q = (dp (r + l₀)).add p) → DestCells dests 0 len dp q :=
      fun q hq => hq.elim (hD q) (hsub fun p hp => by omega)
    refine (dotProdAt_spec hm c hsrcs hl horder (ht.trans hu) hall (Nat.le_of_eq (Nat.sub_add_cancel hlen))).mono
      fun u' hu' => hu'.congr fun q => ?_
    rw [GroupCells, Nat.sub_add_cancel hlen]
    simp only [and_assoc]

/-! ## What an encoder writes -/

/-- The kernel writes `rows` rows, when `len` has room for a register. -/
def Encodes (W rows : Nat) (kernel : Kernel N) : Prop :=
  ∀ {mem t : Mem} {len srcs dests l₀ : Nat} {v : Vector UInt8 N} {src dest : Nat → Option Ptr} {sp dp : Nat → Ptr}
    {T : Ptr → UInt8} {D : Ptr → Prop}, W ≤ len → Job mem len srcs dests v src dest sp dp T → 0 < srcs →
    l₀ + rows ≤ dests → Written mem t D T → (∀ q, D q → DestCells dests 0 len dp q) →
    Returns (kernel len srcs v (l₀ * srcs * 32) src (fun r => dest (r + l₀)) t) fun x =>
      Written t x.1 (GroupCells l₀ rows dp fun p => p < len) T

theorem encodes_of_multiplies (hm : m.Multiplies) (hw : 0 < w) {order : List Nat}
    (horder : order.Perm (List.range rows)) : Encodes w rows (gfNvectDotProd m rows order : Kernel N) :=
  fun hlen c hsrcs hl ht hD =>
    (gfNvectDotProd_spec hm hw hlen c hsrcs hl (fun _ => horder.mem_iff.trans List.mem_range) ht hD).mono fun _ h => h.2

theorem encodeGroups_spec {W : Nat} {kernel : Nat → Kernel N} (hkernel : ∀ n, 0 < n → n ≤ 6 → Encodes W n (kernel n))
    (hlen : W ≤ len) (c : Job mem len srcs dests v src dest sp dp T) (hsrcs : 0 < srcs) (hl : l₀ + rows ≤ dests)
    (ht : Written mem t D T) (hD : ∀ q, D q → DestCells dests 0 len dp q) :
    Returns (encodeGroups kernel len srcs v src rows (l₀ * srcs * 32) (fun r => dest (r + l₀)) t) fun t' =>
      Written t t' (GroupCells l₀ rows dp fun p => p < len) T := by
  induction rows using Nat.strong_induction_on generalizing l₀ t D with
  | _ rows ih =>
    by_cases hsix : 6 ≤ rows
    · obtain ⟨rest, rfl⟩ := Nat.exists_eq_add_of_le' hsix
      rw [encodeGroups]
      refine (hkernel 6 (by decide) (by decide) hlen c hsrcs (by omega) ht hD).bind fun x hx => ?_
      have htbl : l₀ * srcs * 32 + 6 * srcs * 32 = (l₀ + 6) * srcs * 32 := by ring
      have hptr : (fun l => dest (l + 6 + l₀)) = fun l => dest (l + (l₀ + 6)) := by
        funext l
        rw [Nat.add_assoc, Nat.add_comm 6 l₀]
      rw [htbl, hptr]
      refine (ih rest (by omega) (by omega) (ht.trans hx) fun q hq => hq.elim (hD q)
        (groupCells_dest (by omega) fun p hp => hp)).mono fun u hu => (hx.trans hu).congr fun q => groupCells_six
    · match rows, hsix with
      | 0, _ =>
        rw [encodeGroups]
        refine returns_some ((Written.refl t T).congr fun q => ?_)
        simp [GroupCells]
      | rows + 1, hsix =>
        rw [encodeGroups]
        · exact (hkernel (rows + 1) (by omega) (by omega) hlen c hsrcs hl ht hD).bind fun x hx => returns_some hx
        · intro rest
          omega

/-- The base encoder. -/
theorem Job.base (c : Job mem len srcs dests v src dest sp dp T) :
    Returns (ecEncodeData len srcs dests v src dest mem) fun t => Written mem t (DestCells dests 0 len dp) T := by
  have h : Returns (ecEncodeData len srcs dests v src dest mem) fun t => Written mem t (DestCells dests 0 (0 + len) dp) T :=
    ecEncodeData_spec c.room c.src c.dest c.windows (Nat.le_of_eq (Nat.zero_add len)) (by
      rw [Nat.zero_add]
      exact c.target)
  rwa [Nat.zero_add] at h

/-- The encoders that leave the destinations as `ec_encode_data_base` does. -/
theorem encodeGroups_eq {W : Nat} {kernel : Nat → Kernel N} (hkernel : ∀ n, 0 < n → n ≤ 6 → Encodes W n (kernel n))
    (c : Job mem len srcs dests v src dest sp dp T) (hsrcs : 0 < srcs) :
    (if len < W then ecEncodeData len srcs dests v src dest mem
      else encodeGroups kernel len srcs v src dests 0 dest mem) = ecEncodeData len srcs dests v src dest mem := by
  split
  · rfl
  · rename_i hlen
    have hvec : Returns (encodeGroups kernel len srcs v src dests (0 * srcs * 32) (fun r => dest (r + 0)) mem) fun t =>
        Written mem t (GroupCells 0 dests dp fun p => p < len) T :=
      encodeGroups_spec hkernel (Nat.not_lt.1 hlen) c hsrcs (Nat.le_of_eq (Nat.zero_add dests)) (Written.refl mem T)
        fun q hq => hq.elim
    rw [Nat.zero_mul, Nat.zero_mul] at hvec
    obtain ⟨t, he, hw⟩ := hvec
    obtain ⟨t', he', hw'⟩ := c.base
    obtain rfl := (hw.congr groupCells_zero).unique hw'
    exact he.trans he'.symm

end

theorem dotProdSse_encodes {n : Nat} (h1 : 0 < n) (h2 : n ≤ 6) : Encodes 16 n (dotProdSse n : Kernel N) := by
  obtain rfl | rfl | rfl | rfl | rfl | rfl : n = 1 ∨ n = 2 ∨ n = 3 ∨ n = 4 ∨ n = 5 ∨ n = 6 := by omega
  all_goals exact encodes_of_multiplies mulSse_multiplies (by decide) (by decide)

theorem dotProdAvx_encodes {n : Nat} (h1 : 0 < n) (h2 : n ≤ 6) : Encodes 16 n (dotProdAvx n : Kernel N) := by
  obtain rfl | rfl | rfl | rfl | rfl | rfl : n = 1 ∨ n = 2 ∨ n = 3 ∨ n = 4 ∨ n = 5 ∨ n = 6 := by omega
  all_goals exact encodes_of_multiplies mulSse_multiplies (by decide) (by decide)

theorem dotProdAvx2_encodes {n : Nat} (h1 : 0 < n) (h2 : n ≤ 6) : Encodes 32 n (dotProdAvx2 n : Kernel N) := by
  obtain h | h : (n = 1 ∨ n = 2 ∨ n = 3) ∨ n = 4 ∨ n = 5 ∨ n = 6 := by omega
  · obtain rfl | rfl | rfl := h
    all_goals exact encodes_of_multiplies mulAvx2_multiplies (by decide) (by decide)
  · obtain rfl | rfl | rfl := h
    all_goals exact encodes_of_multiplies mulAvx2Swapped_multiplies (by decide) (by decide)

theorem dotProdAvx512_encodes {n : Nat} (h1 : 0 < n) (h2 : n ≤ 6) : Encodes 64 n (dotProdAvx512 n : Kernel N) := by
  obtain rfl | rfl | rfl | rfl | rfl | rfl : n = 1 ∨ n = 2 ∨ n = 3 ∨ n = 4 ∨ n = 5 ∨ n = 6 := by omega
  all_goals exact encodes_of_multiplies mulAvx512_multiplies (by decide) (by decide)

/-- **The encoders agree.** On tables that `ec_init_tables` makes, whichever
encoder `ec_encode_data` is dispatched to leaves the memory the base encoder
leaves. -/
theorem ecEncodeDataOn_eq (isa : Isa) {mem : Mem} {len srcs dests : Nat} {v : Vector UInt8 N} {src dest : Nat → Option Ptr}
    {sp dp : Nat → Ptr} {T : Ptr → UInt8} (c : Job mem len srcs dests v src dest sp dp T) (hsrcs : 0 < srcs) :
    ecEncodeDataOn len srcs dests v src dest mem isa = ecEncodeData len srcs dests v src dest mem := by
  cases isa with
  | base => rfl
  | sse => exact encodeGroups_eq (fun n => dotProdSse_encodes) c hsrcs
  | avx => exact encodeGroups_eq (fun n => dotProdAvx_encodes) c hsrcs
  | avx2 => exact encodeGroups_eq (fun n => dotProdAvx2_encodes) c hsrcs
  | avx512 => exact encodeGroups_eq (fun n => dotProdAvx512_encodes) c hsrcs

/-- One source and one destination of 17 bytes, coefficient 2: the SSE encoder writes
bytes 1 to 15 twice. -/
theorem ecEncodeDataOn_eq_one :
    let v : Vector UInt8 32 := Vector.ofFn fun i => tableByte 2 i
    let mem : Mem := #[Array.replicate 17 3, Array.replicate 17 0]
    ecEncodeDataOn 17 1 1 v (fun _ => some ⟨0, 0⟩) (fun _ => some ⟨1, 0⟩) mem .sse =
      ecEncodeData 17 1 1 v (fun _ => some ⟨0, 0⟩) (fun _ => some ⟨1, 0⟩) mem := by
  intro v mem
  have hv : Expanded v (1 * 1) := expanded_of_tables (f := fun _ => 2) fun x hx => by
    rw [cell_ofFn _ hx, Nat.mod_eq_of_lt hx]
  have hvalid : Valid mem ⟨0, 0⟩ 17 ∧ Valid mem ⟨1, 0⟩ 17 := by decide
  have c : Job mem 17 1 1 v (fun _ => some ⟨0, 0⟩) (fun _ => some ⟨1, 0⟩) (fun _ => ⟨0, 0⟩) (fun _ => ⟨1, 0⟩)
      fun q => dotBytes 1 (coef v 1 0) fun _ => byteAt mem ⟨0, q.off⟩ :=
    { room := by decide
      expanded := hv
      src := fun _ _ => rfl
      dest := fun _ _ => rfl
      windows := ⟨fun _ _ => hvalid.1, fun _ _ => hvalid.2, fun _ _ _ _ _ _ _ _ => by simp [Ptr.add]⟩
      target := fun l hl i _ _ => by
        obtain rfl : l = 0 := by omega
        rfl }
  exact ecEncodeDataOn_eq .sse c (by decide)

end ErasureCode.Isal
