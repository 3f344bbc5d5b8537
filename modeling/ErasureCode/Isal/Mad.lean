import ErasureCode.Isal.Mask
import ErasureCode.Isal.Update

/-!
# The vector encoders that update

`ec_encode_data_update` is dispatched like `ec_encode_data`; its kernels add the
products of one source to up to six parities, a register at a time.

A last register that overlaps the one before cannot just be computed twice here: a
product that is added twice is gone. Those kernels of SSE, AVX and AVX2 that are for
one or two rows keep the last registers of the parities as they were at first
(`gfNvectMadSaved`). The others add the products under a mask (`gfNvectMad`).

`ecEncodeDataUpdateOn_eq`: whichever function is called, the memory is the same
afterwards.
-/
namespace ErasureCode.Isal

open ErasureCode.Core

variable {N w : Nat}

/-! ## The kernels -/

/-- A register of row `r` is loaded, and its product added; or it is stored. -/
inductive Move
  | ld (r : Nat)
  | st (r : Nat)

def loadsThenStores (l : List Nat) : List Move := l.map .ld ++ l.map .st

section
variable (m : LaneMul w) (rows vec vec_i : Nat) (g_tbls : Vector UInt8 N) (tbl : Nat) (src : Ptr)
  (dest : Nat → Option Ptr)

def loadRow (w pos : Nat) (mem : Mem) (r : Nat) : Option (Vector UInt8 w) := do movdqu w mem ((← dest r).add pos)

def storeRow (pos : Nat) (mem : Mem) (r : Nat) (x : Vector UInt8 w) : Option Mem := do movdqust mem ((← dest r).add pos) x

/-- The products of the register `x0` with the tables of all rows. -/
def products (x0 : Vector UInt8 w) : Option (Vector (Vector UInt8 w) rows) :=
  let parts := m.split x0
  forUp 0 rows (Vector.replicate rows (broadcastb w 0)) fun r xtmph => do
    wr xtmph r (← (movdquTbl 32 g_tbls (tbl + vec_i * 32 + r * (vec * 32))).map (m.lookup · parts))

/-- The memory, and the registers of the parities. -/
def move {rows : Nat} (pos : Nat) (xtmph : Vector (Vector UInt8 w) rows) :
    Move → Mem × Vector (Vector UInt8 w) rows → Option (Mem × Vector (Vector UInt8 w) rows)
  | .ld r, (mem, xd) => do return (mem, ← wr xd r (pxor (← loadRow dest w pos mem r) (cell xtmph r)))
  | .st r, (mem, xd) => do return (← storeRow dest pos mem r (cell xd r), xd)

/-- The loop body at `pos`. -/
def madAt (moves : List Move) (pos : Nat) (mem : Mem) : Option Mem := do
  let x0 ← movdqu w mem (src.add pos)
  let xtmph ← products m rows vec vec_i g_tbls tbl x0
  let s ← run (move dest pos xtmph) moves (mem, Vector.replicate rows (broadcastb w 0))
  return s.1

/-- The registers of the parities at `pos`. -/
def backup (w pos : Nat) (mem : Mem) : Option (Vector (Vector UInt8 w) rows) :=
  forUp 0 rows (Vector.replicate rows (broadcastb w 0)) fun r xtmpd => do wr xtmpd r (← loadRow dest w pos mem r)

/-- The loop body at `pos`, with the registers restored. -/
def madOverlap (xtmpd : Vector (Vector UInt8 w) rows) (pos : Nat) (mem : Mem) : Option Mem := do
  let x0 ← movdqu w mem (src.add pos)
  let xtmph ← products m rows vec vec_i g_tbls tbl x0
  forUp 0 rows mem fun r mem => storeRow dest pos mem r (pxor (cell xtmpd r) (cell xtmph r))

end

/-- `len`, `vec`, `vec_i`, the tables and where they start in `g_tbls`, the source,
the pointers to the parities; the result is 1 for a `len` that is too small. -/
abbrev MadKernel (N : Nat) :=
  Nat → Nat → Nat → Vector UInt8 N → Nat → Ptr → (Nat → Option Ptr) → Mem → Option (Mem × Nat)

/-- The last registers are kept from before the loop. -/
def gfNvectMadSaved (m : LaneMul w) (rows : Nat) : MadKernel N := fun len vec vec_i g_tbls tbl src dest mem => do
  if len < w then return (mem, 1)
  let xtmpd ← backup rows dest w (len - w) mem
  let at_ := madAt m rows vec vec_i g_tbls tbl src dest (loadsThenStores (List.range rows))
  let overlap := madOverlap m rows vec vec_i g_tbls tbl src dest xtmpd
  return (← blockLoop w len at_ (fun _ => overlap (len - w)) (len / w) 0 mem, 0)

/-- In the last pass the products are `tail`'s, for `len` and the position that the
rounds have reached. -/
def gfNvectMad (m : LaneMul w) (tail : Nat → Nat → LaneMul w) (rows : Nat) (moves tailMoves : List Move) : MadKernel N :=
  fun len vec vec_i g_tbls tbl src dest mem => do
    if len < w then return (mem, 1)
    let at_ := madAt m rows vec vec_i g_tbls tbl src dest moves
    let last := fun pos => madAt (tail len pos) rows vec vec_i g_tbls tbl src dest tailMoves (len - w)
    return (← blockLoop w len at_ last (len / w) 0 mem, 0)

def gfNvectMadMasked (m : LaneMul w) (rows : Nat) (moves tailMoves : List Move) : MadKernel N :=
  gfNvectMad m (fun len pos => m.masked (tailMask w len pos)) rows moves tailMoves

/-- In the loop the mask lets every byte pass. -/
def gfNvectMadAvx512 (rows : Nat) : MadKernel N :=
  gfNvectMad (mulAvx512Masked (BitVec.allOnes 64)) (fun len _ => mulAvx512Masked (tailLanes len)) rows
    (loadsThenStores (List.range rows)) (loadsThenStores (List.range rows))

/-- mirrors lib/isa-l/erasure_code/gf_vect_mad_sse.asm:134-186 -/
def gfVectMadSse : MadKernel N := gfNvectMadSaved mulSse 1
/-- mirrors lib/isa-l/erasure_code/gf_2vect_mad_sse.asm:156-227 -/
def gf2vectMadSse : MadKernel N := gfNvectMadSaved mulSse 2
/-- mirrors lib/isa-l/erasure_code/gf_3vect_mad_sse.asm:160-284 -/
def gf3vectMadSse : MadKernel N :=
  gfNvectMadMasked mulSse 3 (loadsThenStores (List.range 3)) (loadsThenStores (List.range 3))
def gf4vectMadSse : MadKernel N :=
  gfNvectMadMasked mulSse 4 (loadsThenStores (List.range 4)) (loadsThenStores (List.range 4))
def gf5vectMadSse : MadKernel N :=
  gfNvectMadMasked mulSse 5 (loadsThenStores (List.range 5)) (loadsThenStores (List.range 5))
/-- There are registers for three rows at a time; the last pass begins with the
last three.
mirrors lib/isa-l/erasure_code/gf_6vect_mad_sse.asm:188-393 -/
def gf6vectMadSse : MadKernel N :=
  gfNvectMadMasked mulSse 6 (loadsThenStores [0, 1, 2] ++ loadsThenStores [3, 4, 5])
    (loadsThenStores [3, 4, 5] ++ loadsThenStores [0, 1, 2])

/-! The AVX kernels are the SSE kernels, with three operands. -/

def gfVectMadAvx : MadKernel N := gfNvectMadSaved mulSse 1
def gf2vectMadAvx : MadKernel N := gfNvectMadSaved mulSse 2
def gf3vectMadAvx : MadKernel N :=
  gfNvectMadMasked mulSse 3 (loadsThenStores (List.range 3)) (loadsThenStores (List.range 3))
def gf4vectMadAvx : MadKernel N :=
  gfNvectMadMasked mulSse 4 (loadsThenStores (List.range 4)) (loadsThenStores (List.range 4))
def gf5vectMadAvx : MadKernel N :=
  gfNvectMadMasked mulSse 5 (loadsThenStores (List.range 5)) (loadsThenStores (List.range 5))
def gf6vectMadAvx : MadKernel N :=
  gfNvectMadMasked mulSse 6 (loadsThenStores [0, 1, 2] ++ loadsThenStores [3, 4, 5])
    (loadsThenStores [3, 4, 5] ++ loadsThenStores [0, 1, 2])

def gfVectMadAvx2 : MadKernel N := gfNvectMadSaved mulAvx2 1
def gf2vectMadAvx2 : MadKernel N := gfNvectMadSaved mulAvx2 2
def gf3vectMadAvx2 : MadKernel N :=
  gfNvectMadMasked mulAvx2 3 (loadsThenStores (List.range 3)) (loadsThenStores (List.range 3))
def gf4vectMadAvx2 : MadKernel N :=
  gfNvectMadMasked mulAvx2Swapped 4 (loadsThenStores (List.range 4)) (loadsThenStores (List.range 4))
def gf5vectMadAvx2 : MadKernel N :=
  gfNvectMadMasked mulAvx2Swapped 5 (loadsThenStores (List.range 5)) (loadsThenStores (List.range 5))

/-- The register of the first row is the sixth row's after its store. -/
def movesAvx2 : List Move :=
  [0, 1, 2, 3, 4].map .ld ++ [.st 0, .ld 5] ++ [1, 2, 3, 4, 5].map .st

/-- mirrors lib/isa-l/erasure_code/gf_6vect_mad_avx2.asm:181-389 -/
def gf6vectMadAvx2 : MadKernel N := gfNvectMadMasked mulAvx2Swapped 6 movesAvx2 movesAvx2

/-- mirrors lib/isa-l/erasure_code/gf_vect_mad_avx512.asm:130-184 -/
def gfVectMadAvx512 : MadKernel N := gfNvectMadAvx512 1
def gf2vectMadAvx512 : MadKernel N := gfNvectMadAvx512 2
def gf3vectMadAvx512 : MadKernel N := gfNvectMadAvx512 3
def gf4vectMadAvx512 : MadKernel N := gfNvectMadAvx512 4
def gf5vectMadAvx512 : MadKernel N := gfNvectMadAvx512 5
def gf6vectMadAvx512 : MadKernel N := gfNvectMadAvx512 6

/-! ## The encoders -/

/-- Six rows at a time while there are more than `most`, and the rest by the kernel
for that many.
mirrors lib/isa-l/erasure_code/ec_highlevel_func.c:253-280 -/
def updateGroups (most : Nat) (kernel : Nat → MadKernel N) (len k vec_i : Nat) (g_tbls : Vector UInt8 N) (data : Ptr) :
    Nat → Nat → (Nat → Option Ptr) → Mem → Option Mem
  | rows + 6, tbl, coding, mem => do
    let x ← kernel 6 len k vec_i g_tbls tbl data coding mem
    if most < rows + 6 then
      updateGroups most kernel len k vec_i g_tbls data rows (tbl + 6 * k * 32) (fun l => coding (l + 6)) x.1
    else return x.1
  | 0, _, _, mem => some mem
  | rows + 1, tbl, coding, mem => do return (← kernel (rows + 1) len k vec_i g_tbls tbl data coding mem).1

def madSse : Nat → MadKernel N
  | 1 => gfVectMadSse
  | 2 => gf2vectMadSse
  | 3 => gf3vectMadSse
  | 4 => gf4vectMadSse
  | 5 => gf5vectMadSse
  | _ => gf6vectMadSse

def madAvx : Nat → MadKernel N
  | 1 => gfVectMadAvx
  | 2 => gf2vectMadAvx
  | 3 => gf3vectMadAvx
  | 4 => gf4vectMadAvx
  | 5 => gf5vectMadAvx
  | _ => gf6vectMadAvx

def madAvx2 : Nat → MadKernel N
  | 1 => gfVectMadAvx2
  | 2 => gf2vectMadAvx2
  | 3 => gf3vectMadAvx2
  | 4 => gf4vectMadAvx2
  | 5 => gf5vectMadAvx2
  | _ => gf6vectMadAvx2

def madAvx512 : Nat → MadKernel N
  | 1 => gfVectMadAvx512
  | 2 => gf2vectMadAvx512
  | 3 => gf3vectMadAvx512
  | 4 => gf4vectMadAvx512
  | 5 => gf5vectMadAvx512
  | _ => gf6vectMadAvx512

section
variable (len k rows vec_i : Nat) (g_tbls : Vector UInt8 N) (data : Ptr) (coding : Nat → Option Ptr) (mem : Mem)

/-- mirrors lib/isa-l/erasure_code/ec_highlevel_func.c:245-282 -/
def ecEncodeDataUpdateSse : Option Mem :=
  if len < 16 then ecEncodeDataUpdate len k rows vec_i g_tbls data coding mem
  else updateGroups 6 madSse len k vec_i g_tbls data rows 0 coding mem

/-- mirrors lib/isa-l/erasure_code/ec_highlevel_func.c:284-320 -/
def ecEncodeDataUpdateAvx : Option Mem :=
  if len < 16 then ecEncodeDataUpdate len k rows vec_i g_tbls data coding mem
  else updateGroups 6 madAvx len k vec_i g_tbls data rows 0 coding mem

/-- mirrors lib/isa-l/erasure_code/ec_highlevel_func.c:322-358 -/
def ecEncodeDataUpdateAvx2 : Option Mem :=
  if len < 32 then ecEncodeDataUpdate len k rows vec_i g_tbls data coding mem
  else updateGroups 6 madAvx2 len k vec_i g_tbls data rows 0 coding mem

/-- Its loop runs while there are at least six rows.
mirrors lib/isa-l/erasure_code/ec_highlevel_func.c:206-239 -/
def ecEncodeDataUpdateAvx512 : Option Mem :=
  if len < 64 then ecEncodeDataUpdate len k rows vec_i g_tbls data coding mem
  else updateGroups 5 madAvx512 len k vec_i g_tbls data rows 0 coding mem

/-- The function that `ec_encode_data_update` is dispatched to.
mirrors lib/isa-l/erasure_code/ec_multibinary.asm:85 -/
def ecEncodeDataUpdateOn (isa : Isa) : Option Mem :=
  match isa with
  | .base => ecEncodeDataUpdate len k rows vec_i g_tbls data coding mem
  | .sse => ecEncodeDataUpdateSse len k rows vec_i g_tbls data coding mem
  | .avx => ecEncodeDataUpdateAvx len k rows vec_i g_tbls data coding mem
  | .avx2 => ecEncodeDataUpdateAvx2 len k rows vec_i g_tbls data coding mem
  | .avx512 => ecEncodeDataUpdateAvx512 len k rows vec_i g_tbls data coding mem

end

/-! ## What a kernel writes -/

/-- Every row is stored, after it has been loaded; and loaded only before. The rows
`ld` have been loaded, and `st` stored. -/
def InOrder (rows : Nat) : List Nat → List Nat → List Move → Prop
  | _, st, [] => ∀ r, r < rows → r ∈ st
  | ld, st, .ld r :: moves => r < rows ∧ r ∉ st ∧ InOrder rows (r :: ld) st moves
  | ld, st, .st r :: moves => r ∈ ld ∧ InOrder rows ld (r :: st) moves

instance InOrder.decide (rows : Nat) : (ld st : List Nat) → (moves : List Move) → Decidable (InOrder rows ld st moves)
  | _, st, [] => inferInstanceAs (Decidable (∀ r, r < rows → r ∈ st))
  | ld, st, .ld r :: moves =>
    have := InOrder.decide rows (r :: ld) st moves
    inferInstanceAs (Decidable (r < rows ∧ r ∉ st ∧ InOrder rows (r :: ld) st moves))
  | ld, st, .st r :: moves =>
    have := InOrder.decide rows ld (r :: st) moves
    inferInstanceAs (Decidable (r ∈ ld ∧ InOrder rows ld (r :: st) moves))

section
variable {mem t u : Mem} {len k dests vec_i l₀ rows pos : Nat} {v : Vector UInt8 N} {data : Ptr} {dest : Nat → Option Ptr}
  {dp : Nat → Ptr} {T : Ptr → UInt8} {D : Ptr → Prop} {m : LaneMul w} {P : Nat → Prop}

/-- The register of a row at `pos`. -/
def RowCells (w : Nat) (dp : Nat → Ptr) (pos l : Nat) (q : Ptr) : Prop := ∃ i, i < w ∧ q = (dp l).add (pos + i)

theorem loadRow_spec (c : UpdateJob mem len k dests vec_i v data dest dp T) (ht : Written mem t D T)
    (hl : l₀ + rows ≤ dests) (hpos : pos + w ≤ len) {r : Nat} (hr : r < rows) :
    Returns (loadRow (fun r => dest (r + l₀)) w pos t r) fun x =>
      ∀ i, i < w → cell x i = byteAt t ((dp (r + l₀)).add (pos + i)) := by
  unfold loadRow
  simp only [c.dest (r + l₀) (by omega), Option.bind_eq_bind, Option.bind_some]
  refine (movdqu_spec fun i hi => ?_).mono fun x hx i hi => ?_
  · rw [Ptr.add_add]
    exact ht.isSome (c.parity _ (by omega) _ (by omega))
  · rw [hx i hi, Ptr.add_add]

theorem storeRow_spec (c : UpdateJob mem len k dests vec_i v data dest dp T) (ht : Written mem t D T)
    (hl : l₀ + rows ≤ dests) (hpos : pos + w ≤ len) {r : Nat} (hr : r < rows) {x : Vector UInt8 w}
    (hx : ∀ i, i < w → cell x i = T ((dp (r + l₀)).add (pos + i))) :
    Returns (storeRow (fun r => dest (r + l₀)) pos t r x) fun t' => Written t t' (RowCells w dp pos (r + l₀)) T := by
  unfold storeRow
  simp only [c.dest (r + l₀) (by omega), Option.bind_eq_bind, Option.bind_some]
  refine (movdqust_spec (fun i hi => ?_) fun i hi => ?_).mono fun t' ht' => ht'.congr fun q => ?_
  · rw [Ptr.add_add]
    exact ht.isSome (c.parity _ (by omega) _ (by omega))
  · rw [Ptr.add_add, hx i hi]
  · simp only [Ptr.add_add, RowCells]

theorem products_spec (hm : m.MultipliesOn P) (c : UpdateJob mem len k dests vec_i v data dest dp T)
    (hl : l₀ + rows ≤ dests) (x0 : Vector UInt8 w) :
    Returns (products m rows k vec_i v (l₀ * k * 32) x0) fun xtmph => ∀ r, r < rows → ∀ i, i < w →
      (P i → cell (cell xtmph r) i = gfMul (cell x0 i) (coef v k (r + l₀) vec_i)) ∧
        (¬ P i → cell (cell xtmph r) i = 0) := by
  refine returns_fill (Q := fun r x => ∀ i, i < w → (P i → cell x i = gfMul (cell x0 i) (coef v k (r + l₀) vec_i)) ∧
    (¬ P i → cell x i = 0)) (fun r hr => ?_) _
  rw [Nat.add_right_comm, table_pos]
  obtain ⟨xgft, he, hx⟩ := c.expanded.table c.room (show r + l₀ < dests by omega) c.source
  rw [he, Option.map_some]
  exact returns_some (hm _ xgft x0 hx)

/-- The registers at `pos` of all rows. -/
theorem rowCells_all {q : Ptr} :
    (∃ r, r < rows ∧ RowCells w dp pos (r + l₀) q) ↔ GroupCells l₀ rows dp (fun p => pos ≤ p ∧ p < pos + w) q := by
  rw [groupCells_round]
  exact ⟨fun ⟨r, hr, i, hi, hq⟩ => ⟨i, hi, r, hr, hq⟩, fun ⟨i, hi, r, hr, hq⟩ => ⟨r, hr, i, hi, hq⟩⟩

/-- The moves store every row, when its register and its product add up to `T`. -/
theorem moves_spec (c : UpdateJob mem len k dests vec_i v data dest dp T) (ht : Written mem t D T)
    (hl : l₀ + rows ≤ dests) (hpos : pos + w ≤ len) {xtmph : Vector (Vector UInt8 w) rows}
    (hsum : ∀ r, r < rows → ∀ i, i < w → T ((dp (r + l₀)).add (pos + i)) =
      byteAt t ((dp (r + l₀)).add (pos + i)) ^^^ cell (cell xtmph r) i) {moves : List Move} {ld st : List Nat}
    (horder : InOrder rows ld st moves) {xd : Vector (Vector UInt8 w) rows}
    (hu : Written t u (fun q => ∃ r ∈ st, RowCells w dp pos (r + l₀) q) T) (hst : ∀ r ∈ st, r < rows)
    (hld : ∀ r ∈ ld, r < rows ∧ ∀ i, i < w → cell (cell xd r) i = T ((dp (r + l₀)).add (pos + i))) :
    Returns (run (move (fun r => dest (r + l₀)) pos xtmph) moves (u, xd)) fun s =>
      Written t s.1 (GroupCells l₀ rows dp fun p => pos ≤ p ∧ p < pos + w) T := by
  induction moves generalizing ld st u xd with
  | nil =>
    refine returns_some (hu.congr fun q => Iff.trans ?_ rowCells_all)
    exact ⟨fun ⟨r, hr, h⟩ => ⟨r, hst r hr, h⟩, fun ⟨r, hr, h⟩ => ⟨r, horder r hr, h⟩⟩
  | cons a moves ih =>
    rw [run_cons]
    cases a with
    | ld r =>
      obtain ⟨hr, hnew, horder⟩ := horder
      obtain ⟨x, he, hx⟩ := loadRow_spec (w := w) c (ht.trans hu) hl hpos hr
      simp only [move, he, Option.bind_eq_bind, Option.bind_some, wr_eq xd hr]
      refine ih horder hu hst fun r' hr' => ?_
      by_cases h : r' = r
      · subst h
        refine ⟨hr, fun i hi => ?_⟩
        -- the row is as it was: it has not been stored
        rw [cell_upd_self _ hr, cell_pxor _ _ hi, hx i hi, hsum _ hr i hi, hu.byteAt_frame]
        rintro ⟨r'', hr'', i', hi', e⟩
        have hlt := hst r'' hr''
        obtain ⟨e', -⟩ := c.apart _ (by omega) _ (by omega) _ (by omega) _ (by omega) e
        exact hnew (by rwa [Nat.add_right_cancel e'])
      · obtain ⟨hlt, hxd⟩ := hld r' ((List.mem_cons.1 hr').resolve_left h)
        exact ⟨hlt, fun i hi => by rw [cell_upd_ne _ (Ne.symm h), hxd i hi]⟩
    | st r =>
      obtain ⟨hr, horder⟩ := horder
      obtain ⟨hrr, hxd⟩ := hld r hr
      obtain ⟨t', he, ht'⟩ := storeRow_spec c (ht.trans hu) hl hpos hrr hxd
      simp only [move, he, Option.bind_eq_bind, Option.bind_some]
      refine ih horder ((hu.trans ht').congr fun q => ?_) (List.forall_mem_cons.2 ⟨hrr, hst⟩) hld
      rw [List.exists_mem_cons_iff, or_comm]

/-- A pass at `pos`: the bytes that are multiplied are those not yet written. -/
theorem madAt_spec (hm : m.MultipliesOn P) (c : UpdateJob mem len k dests vec_i v data dest dp T)
    (ht : Written mem t D T) (hD : ∀ q, D q → DestCells dests 0 len dp q) (hl : l₀ + rows ≤ dests) (hpos : pos + w ≤ len)
    (hP : ∀ r, r < rows → ∀ i, i < w → (D ((dp (r + l₀)).add (pos + i)) ↔ ¬ P i)) {moves : List Move}
    (horder : InOrder rows [] [] moves) :
    Returns (madAt m rows k vec_i v (l₀ * k * 32) data (fun r => dest (r + l₀)) moves pos t) fun t' =>
      Written t t' (GroupCells l₀ rows dp fun p => pos ≤ p ∧ p < pos + w) T := by
  unfold madAt
  have hvalid : Valid t (data.add pos) w := fun i hi => by
    rw [Ptr.add_add]
    exact ht.isSome (c.src _ (by omega))
  refine (movdqu_spec hvalid).bind fun x0 hx0 => (products_spec hm c hl x0).bind fun xtmph hx => ?_
  refine (moves_spec c ht hl hpos (fun r hr i hi => ?_) horder ((Written.refl t T).congr fun q => by simp)
    (by simp) (by simp)).bind fun s hs => returns_some hs
  by_cases h : P i
  · rw [(hx r hr i hi).1 h, hx0 i hi, Ptr.add_add, c.data_byte ht hD (by omega),
      ht.byteAt_frame fun hd => (hP r hr i hi).1 hd h, c.target _ (by omega) _ (by omega)]
  · rw [(hx r hr i hi).2 h, UInt8.xor_zero, byteAt, ht.set _ ((hP r hr i hi).2 h), Option.getD_some]

theorem madOverlap_spec (hm : m.Multiplies) (c : UpdateJob mem len k dests vec_i v data dest dp T)
    (ht : Written mem t D T) (hD : ∀ q, D q → DestCells dests 0 len dp q) (hl : l₀ + rows ≤ dests) (hpos : pos + w ≤ len)
    {xtmpd : Vector (Vector UInt8 w) rows} (hxd : ∀ r, r < rows → ∀ i, i < w →
      cell (cell xtmpd r) i = byteAt mem ((dp (r + l₀)).add (pos + i))) :
    Returns (madOverlap m rows k vec_i v (l₀ * k * 32) data (fun r => dest (r + l₀)) xtmpd pos t) fun t' =>
      Written t t' (GroupCells l₀ rows dp fun p => pos ≤ p ∧ p < pos + w) T := by
  unfold madOverlap
  have hvalid : Valid t (data.add pos) w := fun i hi => by
    rw [Ptr.add_add]
    exact ht.isSome (c.src _ (by omega))
  refine (movdqu_spec hvalid).bind fun x0 hx0 => (products_spec hm.on c hl x0).bind fun xtmph hx => ?_
  refine (forUp_written (W := fun r => RowCells w dp pos (r + l₀)) (Nat.zero_le rows) fun r u _ hr hu => ?_).mono
    fun u hu => hu.congr fun q => ?_
  · refine storeRow_spec c (ht.trans hu) hl hpos hr fun i hi => ?_
    rw [cell_pxor _ _ hi, hxd r hr i hi, (hx r hr i hi).1 trivial, hx0 i hi, Ptr.add_add, c.data_byte ht hD (by omega),
      c.target _ (by omega) _ (by omega)]
  · rw [← rowCells_all]
    simp only [Nat.zero_le, true_and]

/-- Before the rows of a kernel, only rows above them have been written. -/
theorem UpdateJob.fresh (c : UpdateJob mem len k dests vec_i v data dest dp T) (hD : ∀ q, D q → DestCells l₀ 0 len dp q)
    {l p : Nat} (hl : l < dests) (hle : l₀ ≤ l) (hp : p < len) : ¬ D ((dp l).add p) := by
  intro hd
  obtain ⟨l', hl', i, -, hi, e⟩ := hD _ hd
  obtain ⟨rfl, -⟩ := c.apart l hl l' (by omega) p hp i hi e
  omega

/-- The kernel writes `rows` rows, when `len` has room for a register. -/
def Updates (W rows : Nat) (kernel : MadKernel N) : Prop :=
  ∀ {mem t : Mem} {len k dests vec_i l₀ : Nat} {v : Vector UInt8 N} {data : Ptr} {dest : Nat → Option Ptr}
    {dp : Nat → Ptr} {T : Ptr → UInt8} {D : Ptr → Prop}, W ≤ len → UpdateJob mem len k dests vec_i v data dest dp T →
    l₀ + rows ≤ dests → Written mem t D T → (∀ q, D q → DestCells l₀ 0 len dp q) →
    Returns (kernel len k vec_i v (l₀ * k * 32) data (fun r => dest (r + l₀)) t) fun x =>
      Written t x.1 (GroupCells l₀ rows dp fun p => p < len) T

/-- The bytes that the rounds before `pos` have written. -/
theorem UpdateJob.reached (c : UpdateJob mem len k dests vec_i v data dest dp T)
    (hD : ∀ q, D q → DestCells l₀ 0 len dp q) (hl : l₀ + rows ≤ dests) (hpos : pos ≤ len) {r p : Nat} (hr : r < rows)
    (hp : p < len) : (D ((dp (r + l₀)).add p) ∨ ∃ p', p' < pos ∧ ∃ r', r' < rows ∧
      (dp (r + l₀)).add p = (dp (r' + l₀)).add p') ↔ p < pos := by
  constructor
  · rintro (hd | ⟨p', hp', r', hr', e⟩)
    · exact absurd hd (c.fresh hD (by omega) (by omega) hp)
    · obtain ⟨-, rfl⟩ := c.apart _ (by omega) _ (by omega) p hp p' (by omega) e
      exact hp'
  · intro hlt
    exact .inr ⟨p, hlt, r, hr, rfl⟩

theorem reached_dest (hD : ∀ q, D q → DestCells l₀ 0 len dp q) (hl : l₀ + rows ≤ dests) (hpos : pos ≤ len) {q : Ptr}
    (h : D q ∨ ∃ p, p < pos ∧ ∃ r, r < rows ∧ q = (dp (r + l₀)).add p) : DestCells dests 0 len dp q := by
  rcases h with hd | ⟨p, hp, r, hr, rfl⟩
  · obtain ⟨l, hlt, h⟩ := hD q hd
    exact ⟨l, by omega, h⟩
  · exact ⟨r + l₀, by omega, p, Nat.zero_le p, by omega, rfl⟩

/-- The rounds, and a last pass over the last register. -/
theorem madLoop_spec (hm : m.MultipliesOn fun _ => True) (hw : 0 < w) (hlen : w ≤ len)
    (c : UpdateJob mem len k dests vec_i v data dest dp T) (hl : l₀ + rows ≤ dests) (ht : Written mem t D T)
    (hD : ∀ q, D q → DestCells l₀ 0 len dp q) {moves : List Move} (horder : InOrder rows [] [] moves)
    {last : Nat → Mem → Option Mem} (hlast : ∀ pos u, pos % w = 0 → pos < len → len < pos + w →
      Written mem u (fun q => D q ∨ ∃ p, p < pos ∧ ∃ r, r < rows ∧ q = (dp (r + l₀)).add p) T →
      Returns (last pos u) fun u' => Written u u' (GroupCells l₀ rows dp fun p => len - w ≤ p ∧ p < len - w + w) T) :
    Returns (blockLoop w len (madAt m rows k vec_i v (l₀ * k * 32) data (fun r => dest (r + l₀)) moves) last (len / w) 0 t)
      fun u => Written t u (GroupCells l₀ rows dp fun p => p < len) T := by
  refine blockLoop_written (W := fun p q => ∃ r, r < rows ∧ q = (dp (r + l₀)).add p) hw hlen
    (fun pos u hpos hu => ?_) fun pos u hmod hpos hend hu => ?_
  · refine (madAt_spec hm c (ht.trans hu) (fun q => reached_dest hD hl (by omega)) hl hpos (fun r hr i hi => ?_)
      horder).mono fun u' hu' => hu'.congr fun q => groupCells_round
    rw [c.reached hD hl (by omega) hr (by omega)]
    simp
  · refine (hlast pos u hmod hpos hend (ht.trans hu)).mono fun u' hu' => hu'.congr fun q => ?_
    rw [GroupCells, Nat.sub_add_cancel hlen]
    simp only [and_assoc]

/-- **The kernels with a mask.** -/
theorem gfNvectMad_updates (hm : m.MultipliesOn fun _ => True) {tail : Nat → Nat → LaneMul w}
    (htail : ∀ len pos, pos % w = 0 → w ≤ len → pos < len → len < pos + w →
      (tail len pos).MultipliesOn fun i => pos ≤ len - w + i) (hw : 0 < w) {moves tailMoves : List Move}
    (horder : InOrder rows [] [] moves) (hlast : InOrder rows [] [] tailMoves) :
    Updates w rows (gfNvectMad m tail rows moves tailMoves : MadKernel N) := by
  intro mem t len k dests vec_i l₀ v data dest dp T D hlen c hl ht hD
  unfold gfNvectMad
  rw [if_neg (Nat.not_lt.2 hlen)]
  refine (madLoop_spec hm hw hlen c hl ht hD horder fun pos u hmod hpos hend hu => ?_).bind fun u hu => returns_some hu
  refine madAt_spec (htail len pos hmod hlen hpos hend) c hu (fun q => reached_dest hD hl (by omega)) hl
    (Nat.le_of_eq (Nat.sub_add_cancel hlen)) (fun r hr i hi => ?_) hlast
  rw [c.reached hD hl (by omega) hr (by omega), Nat.not_le]

/-- **The kernels that keep the last registers.** -/
theorem gfNvectMadSaved_updates (hm : m.Multiplies) (hw : 0 < w)
    (horder : InOrder rows [] [] (loadsThenStores (List.range rows))) :
    Updates w rows (gfNvectMadSaved m rows : MadKernel N) := by
  intro mem t len k dests vec_i l₀ v data dest dp T D hlen c hl ht hD
  unfold gfNvectMadSaved
  rw [if_neg (Nat.not_lt.2 hlen)]
  have hend : len - w + w ≤ len := Nat.le_of_eq (Nat.sub_add_cancel hlen)
  have hbackup : Returns (backup rows (fun r => dest (r + l₀)) w (len - w) t) fun xtmpd => ∀ r, r < rows → ∀ i, i < w →
      cell (cell xtmpd r) i = byteAt mem ((dp (r + l₀)).add (len - w + i)) := by
    refine returns_fill (Q := fun r x => ∀ i, i < w → cell x i = byteAt mem ((dp (r + l₀)).add (len - w + i)))
      (fun r hr => (loadRow_spec c ht hl hend hr).mono fun x hx i hi => ?_) _
    rw [hx i hi, ht.byteAt_frame (c.fresh hD (by omega) (by omega) (by omega))]
  refine hbackup.bind fun xtmpd hxd => ?_
  refine (madLoop_spec hm.on hw hlen c hl ht hD horder fun pos u _ hpos _ hu => ?_).bind fun u hu => returns_some hu
  exact madOverlap_spec hm c hu (fun q => reached_dest hD hl (by omega)) hl hend hxd

theorem updateGroups_spec {W most : Nat} {kernel : Nat → MadKernel N} (hkernel : ∀ n, 0 < n → n ≤ 6 → Updates W n (kernel n))
    (hmost : most ≤ 6) (hlen : W ≤ len) (c : UpdateJob mem len k dests vec_i v data dest dp T) (hl : l₀ + rows ≤ dests)
    (ht : Written mem t D T) (hD : ∀ q, D q → DestCells l₀ 0 len dp q) :
    Returns (updateGroups most kernel len k vec_i v data rows (l₀ * k * 32) (fun r => dest (r + l₀)) t) fun t' =>
      Written t t' (GroupCells l₀ rows dp fun p => p < len) T := by
  induction rows using Nat.strong_induction_on generalizing l₀ t D with
  | _ rows ih =>
    by_cases hsix : 6 ≤ rows
    · obtain ⟨rest, rfl⟩ := Nat.exists_eq_add_of_le' hsix
      rw [updateGroups]
      refine (hkernel 6 (by decide) (by decide) hlen c (by omega) ht hD).bind fun x hx => ?_
      split
      · have htbl : l₀ * k * 32 + 6 * k * 32 = (l₀ + 6) * k * 32 := by ring
        have hptr : (fun l => dest (l + 6 + l₀)) = fun l => dest (l + (l₀ + 6)) := by
          funext l
          rw [Nat.add_assoc, Nat.add_comm 6 l₀]
        rw [htbl, hptr]
        refine (ih rest (by omega) (by omega) (ht.trans hx) fun q hq => ?_).mono fun u hu =>
          (hx.trans hu).congr fun q => groupCells_six
        rcases hq with hd | ⟨p, hp, r, hr, rfl⟩
        · obtain ⟨l, hlt, h⟩ := hD q hd
          exact ⟨l, by omega, h⟩
        · exact ⟨r + l₀, by omega, p, Nat.zero_le p, hp, rfl⟩
      · obtain rfl : rest = 0 := by omega
        exact returns_some hx
    · match rows, hsix with
      | 0, _ =>
        rw [updateGroups]
        refine returns_some ((Written.refl t T).congr fun q => ?_)
        simp [GroupCells]
      | rows + 1, hsix =>
        rw [updateGroups]
        · exact (hkernel (rows + 1) (by omega) (by omega) hlen c hl ht hD).bind fun x hx => returns_some hx
        · intro rest
          omega

theorem updateGroups_eq {W most : Nat} {kernel : Nat → MadKernel N} (hkernel : ∀ n, 0 < n → n ≤ 6 → Updates W n (kernel n))
    (hmost : most ≤ 6) (c : UpdateJob mem len k dests vec_i v data dest dp T) :
    (if len < W then ecEncodeDataUpdate len k dests vec_i v data dest mem
      else updateGroups most kernel len k vec_i v data dests 0 dest mem) =
      ecEncodeDataUpdate len k dests vec_i v data dest mem := by
  split
  · rfl
  · rename_i hlen
    have hvec : Returns (updateGroups most kernel len k vec_i v data dests (0 * k * 32) (fun r => dest (r + 0)) mem) fun t =>
        Written mem t (GroupCells 0 dests dp fun p => p < len) T :=
      updateGroups_spec hkernel hmost (Nat.not_lt.1 hlen) c (Nat.le_of_eq (Nat.zero_add dests)) (Written.refl mem T)
        fun q hq => hq.elim
    rw [Nat.zero_mul, Nat.zero_mul] at hvec
    obtain ⟨t, he, hw⟩ := hvec
    obtain ⟨t', he', hw'⟩ := ecEncodeDataUpdate_spec c
    obtain rfl := (hw.congr groupCells_zero).unique hw'
    exact he.trans he'.symm

end

theorem madSaved_updates {m : LaneMul w} (hm : m.Multiplies) (hw : 0 < w) {n : Nat} (hn : n = 1 ∨ n = 2) :
    Updates w n (gfNvectMadSaved m n : MadKernel N) := by
  obtain rfl | rfl := hn
  all_goals exact gfNvectMadSaved_updates hm hw (by decide)

theorem madMasked_updates {m : LaneMul w} (hm : m.Multiplies) (hw : 0 < w) (hw' : w ≤ 128) {n : Nat}
    {moves tailMoves : List Move} (horder : InOrder n [] [] moves) (hlast : InOrder n [] [] tailMoves) :
    Updates w n (gfNvectMadMasked m n moves tailMoves : MadKernel N) :=
  gfNvectMad_updates hm.on (fun _ _ _ hlen hpos hend => hm.masked hw' hlen hpos hend) hw horder hlast

theorem madAvx512_updates {n : Nat} (horder : InOrder n [] [] (loadsThenStores (List.range n))) :
    Updates 64 n (gfNvectMadAvx512 n : MadKernel N) := by
  refine gfNvectMad_updates ((mulAvx512Masked_multiplies _).congr fun i hi => ?_)
    (fun len pos hmod hlen hpos hend => (mulAvx512Masked_multiplies _).congr fun i hi =>
      getLsbD_tailLanes hmod hlen hpos hend hi) (by decide) horder horder
  simp only [BitVec.getLsbD_allOnes, hi, decide_true]

theorem madSse_updates {n : Nat} (h1 : 0 < n) (h2 : n ≤ 6) : Updates 16 n (madSse n : MadKernel N) := by
  obtain h | h : (n = 1 ∨ n = 2) ∨ n = 3 ∨ n = 4 ∨ n = 5 ∨ n = 6 := by omega
  · obtain rfl | rfl := h
    all_goals exact madSaved_updates mulSse_multiplies (by decide) (by decide)
  · obtain rfl | rfl | rfl | rfl := h
    all_goals exact madMasked_updates mulSse_multiplies (by decide) (by decide) (by decide) (by decide)

theorem madAvx_updates {n : Nat} (h1 : 0 < n) (h2 : n ≤ 6) : Updates 16 n (madAvx n : MadKernel N) := by
  obtain h | h : (n = 1 ∨ n = 2) ∨ n = 3 ∨ n = 4 ∨ n = 5 ∨ n = 6 := by omega
  · obtain rfl | rfl := h
    all_goals exact madSaved_updates mulSse_multiplies (by decide) (by decide)
  · obtain rfl | rfl | rfl | rfl := h
    all_goals exact madMasked_updates mulSse_multiplies (by decide) (by decide) (by decide) (by decide)

theorem madAvx2_updates {n : Nat} (h1 : 0 < n) (h2 : n ≤ 6) : Updates 32 n (madAvx2 n : MadKernel N) := by
  obtain h | rfl | h : (n = 1 ∨ n = 2) ∨ n = 3 ∨ n = 4 ∨ n = 5 ∨ n = 6 := by omega
  · obtain rfl | rfl := h
    all_goals exact madSaved_updates mulAvx2_multiplies (by decide) (by decide)
  · exact madMasked_updates mulAvx2_multiplies (by decide) (by decide) (by decide) (by decide)
  · obtain rfl | rfl | rfl := h
    all_goals exact madMasked_updates mulAvx2Swapped_multiplies (by decide) (by decide) (by decide) (by decide)

theorem madAvx512_all {n : Nat} (h1 : 0 < n) (h2 : n ≤ 6) : Updates 64 n (madAvx512 n : MadKernel N) := by
  obtain rfl | rfl | rfl | rfl | rfl | rfl : n = 1 ∨ n = 2 ∨ n = 3 ∨ n = 4 ∨ n = 5 ∨ n = 6 := by omega
  all_goals exact madAvx512_updates (by decide)

/-- **The updates agree.** On tables that `ec_init_tables` makes, and parities that
are apart, whichever function `ec_encode_data_update` is dispatched to leaves the
memory the base function leaves. -/
theorem ecEncodeDataUpdateOn_eq (isa : Isa) {mem : Mem} {len k dests vec_i : Nat} {v : Vector UInt8 N} {data : Ptr}
    {dest : Nat → Option Ptr} {dp : Nat → Ptr} {T : Ptr → UInt8} (c : UpdateJob mem len k dests vec_i v data dest dp T) :
    ecEncodeDataUpdateOn len k dests vec_i v data dest mem isa = ecEncodeDataUpdate len k dests vec_i v data dest mem := by
  cases isa with
  | base => rfl
  | sse => exact updateGroups_eq (fun n => madSse_updates) (by decide) c
  | avx => exact updateGroups_eq (fun n => madAvx_updates) (by decide) c
  | avx2 => exact updateGroups_eq (fun n => madAvx2_updates) (by decide) c
  | avx512 => exact updateGroups_eq (fun n => madAvx512_all) (by decide) c

/-- Three parities of 17 bytes, coefficient 2: in the last pass of the SSE kernel the
mask lets one byte pass. -/
theorem ecEncodeDataUpdateOn_eq_three :
    let v : Vector UInt8 96 := Vector.ofFn fun i => tableByte 2 (i % 32)
    let mem : Mem := #[Array.replicate 17 3, Array.replicate 17 1, Array.replicate 17 4, Array.replicate 17 5]
    ecEncodeDataUpdateOn 17 1 3 0 v ⟨0, 0⟩ (fun l => some ⟨1 + l, 0⟩) mem .sse =
      ecEncodeDataUpdate 17 1 3 0 v ⟨0, 0⟩ (fun l => some ⟨1 + l, 0⟩) mem := by
  intro v mem
  have hv : Expanded v (3 * 1) := expanded_of_tables (f := fun _ => 2) fun x hx => cell_ofFn _ hx
  have hvalid : Valid mem ⟨0, 0⟩ 17 ∧ ∀ l, l < 3 → Valid mem ⟨1 + l, 0⟩ 17 := by decide
  have c : UpdateJob mem 17 1 3 0 v ⟨0, 0⟩ (fun l => some ⟨1 + l, 0⟩) (fun l => ⟨1 + l, 0⟩)
      fun q => byteAt mem q ^^^ gfMul (byteAt mem ⟨0, q.off⟩) (coef v 1 (q.buf - 1) 0) :=
    { room := by decide
      expanded := hv
      source := by decide
      dest := fun _ _ => rfl
      src := hvalid.1
      parity := hvalid.2
      disj := fun l _ i _ i' _ => by simp [Ptr.add]; omega
      apart := fun l _ l' _ i _ i' _ e => by
        have hbuf : 1 + l = 1 + l' := congrArg Ptr.buf e
        have hoff : 0 + i = 0 + i' := congrArg Ptr.off e
        omega
      target := fun l _ i _ => by
        rw [Ptr.add_buf, Ptr.add_off, Nat.add_sub_cancel_left]
        rfl }
  exact ecEncodeDataUpdateOn_eq .sse c

end ErasureCode.Isal
