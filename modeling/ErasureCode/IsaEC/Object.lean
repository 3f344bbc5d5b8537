import ErasureCode.Core.CInt
import ErasureCode.IsaEC.DecodeMatrix

/-!
# The class `IsaEC`

The object's arrays, its constructor and its public methods
(`src/IsaEC.cpp:26-228`), with `k` data and `n` parity strips. A strip is
a pointer into the heap of `Core.Memory`; the object's own arrays are not
reachable from a strip. A method that returns `none` has run into undefined
behaviour: an access outside an array or a strip, an overflowing `int`
product, a division by zero.

The rounds of a parallel loop are taken in order here; `IsaEC.Schedules` and
`IsaEC.SharedPointers` take them in every order the threads may. `decode`,
`decode_ptr` and `cache_decode_ptr` share the body of their loops
(`recoverBlock`); they differ in the bound of the loop and in the table.
-/
namespace ErasureCode

open ErasureCode.Core Isal

/-- The fields of the class (`m` is `k + n`).
mirrors src/IsaEC.hpp:14-32 -/
structure IsaEC (k n : Nat) extends IsaEC.Scratch ((k + n) * k) (k + n) where
  maxSize : Nat
  thread_num : Nat
  encode_matrix : Vector UInt8 ((k + n) * k)
  g_tbls : Vector UInt8 (n * k * 32)
  g_tbls_decode : Vector UInt8 (n * k * 32)
  deriving Inhabited

namespace IsaEC

variable {k n : Nat}

/-- The constructor; `raw` holds what the arrays contain when they are
allocated. Their sizes are `int` products.
mirrors src/IsaEC.cpp:26-47 -/
def new (raw : IsaEC k n) (maxSize thread_num : Nat) : Option (IsaEC k n) := do
  let _ ← mulInt (k + n) k
  let _ ← mulInt (← mulInt n k) 32
  let encode_matrix ← gfGenCauchy1Matrix raw.encode_matrix (k + n) k
  let g_tbls ← ecInitTables k (k + n - k) encode_matrix (k * k) raw.g_tbls
  return { raw with maxSize, thread_num, encode_matrix, g_tbls }

/-! ## Pointer arrays -/

/-- A local array of `c` pointers, filled in order; `none` is an unset slot. -/
def fillPtrs (c : Nat) (f : Nat → Option Ptr) : Option (Vector (Option Ptr) c) :=
  forUp 0 c (Vector.replicate c none) fun i a => do wr a i (some (← f i))

/-- Reading a slot of a pointer array. -/
def slot {c : Nat} (a : Vector (Option Ptr) c) (i : Nat) : Option Ptr := (a[i]?).join

/-- `&in[i][index]` for `i < k`, else `&out[i - k][index]`.
mirrors src/IsaEC.cpp:74-77,116-119 -/
def fragPtr (in_ : Vector Ptr k) (out : Vector Ptr n) (index i : Nat) : Option Ptr := do
  if i < k then return (← in_[i]?).add index else return (← out[i - k]?).add index

/-! ## Encoding -/

/-- One store into the shared `frag_ptrs`.
mirrors src/IsaEC.cpp:74-77 -/
def storeFrag (in_ : Vector Ptr k) (out : Vector Ptr n) (index i : Nat)
    (s : Vector (Option Ptr) (k + n) × Mem) : Option (Vector (Option Ptr) (k + n) × Mem) := do
  return (← wr s.1 i (some (← fragPtr in_ out index i)), s.2)

/-- `ec_encode_data(len, k, n, g_tbls, frag_ptrs, &frag_ptrs[k])`.
mirrors src/IsaEC.cpp:80,121 -/
def encodeFrag (ec : IsaEC k n) (s : Vector (Option Ptr) (k + n) × Mem) :
    Option (Vector (Option Ptr) (k + n) × Mem) := do
  return (s.1, ← ecEncodeData ec.maxSize k n ec.g_tbls (slot s.1) (fun l => slot s.1 (k + l)) s.2)

/-- The memory afterwards, and the value returned. The rounds are in order, as one
thread runs them: their `frag_ptrs` is shared.
mirrors src/IsaEC.cpp:60-83 -/
def encode (ec : IsaEC k n) (in_ : Vector Ptr k) (out : Vector Ptr n) (size : Nat) (mem : Mem) :
    Option (Mem × Bool) := do
  let total_len := toInt (← divSize size k)
  let s ← forStep (toSize total_len) ec.maxSize (Vector.replicate (k + n) none, mem) fun index s => do
    let s ← forUp 0 (k + n) s (storeFrag in_ out index)
    encodeFrag ec s
  return (s.2, true)

/-- One round of `encode_ptr`, whose `frag_ptrs` is its own.
mirrors src/IsaEC.cpp:110-122 -/
def encodePtrBlock (ec : IsaEC k n) (in_ : Vector Ptr k) (out : Vector Ptr n) (i : Nat) (mem : Mem) :
    Option Mem := do
  let index ← mulInt i ec.maxSize
  let frag_ptrs ← fillPtrs (k + n) (fragPtr in_ out index)
  ecEncodeData ec.maxSize k n ec.g_tbls (slot frag_ptrs) (fun l => slot frag_ptrs (k + l)) mem

/-- mirrors src/IsaEC.cpp:99-125 -/
def encodePtr (ec : IsaEC k n) (in_ : Vector Ptr k) (out : Vector Ptr n) (size : Nat) (mem : Mem) :
    Option (Mem × Bool) := do
  let iter_num := toInt (← divSize size ec.maxSize)
  let mem ← forUp 0 iter_num.toNat mem (encodePtrBlock ec in_ out)
  return (mem, true)

/-! ## Decoding -/

section
variable {err_num : Nat}

/-- `gf_gen_decode_matrix_simple`, whose return value is ignored, and
`ec_init_tables` into `tbl`.
mirrors src/IsaEC.cpp:132-135,165-168,195-198 -/
def decodeTables (ec : IsaEC k n) (err_list : Vector UInt8 err_num) (tbl : Vector UInt8 (n * k * 32)) :
    Option (Scratch ((k + n) * k) (k + n) × Vector UInt8 (n * k * 32)) := do
  let (s, _) ← gfGenDecodeMatrixSimple ec.encode_matrix ec.toScratch err_list k (k + n)
  let tbl ← ecInitTables k err_num s.decode_matrix 0 tbl
  return (s, tbl)

/-- The first steps of `decode` and `decode_ptr`: the tables go to `g_tbls`. -/
def loadDecodeTables (ec : IsaEC k n) (err_list : Vector UInt8 err_num) : Option (IsaEC k n) := do
  let (s, g_tbls) ← decodeTables ec err_list ec.g_tbls
  return { ec with toScratch := s, g_tbls }

/-- `&matrix[r][index]`. -/
def stripPtr (matrix : Vector Ptr (k + n)) (index : Nat) (r : UInt8) : Option Ptr := do
  return (← matrix[r.toNat]?).add index

/-- One round of a decode loop, on the table `tbls`.
mirrors src/IsaEC.cpp:140-155,174-188,211-225 -/
def recoverBlock (ec : IsaEC k n) (tbls : Vector UInt8 (n * k * 32)) (matrix : Vector Ptr (k + n))
    (err_list : Vector UInt8 err_num) (index : Nat) (mem : Mem) : Option Mem := do
  let recover_srcs ← fillPtrs k fun i => do stripPtr matrix index (← ec.decode_index[i]?)
  let recover_outp ← fillPtrs err_num fun i => do stripPtr matrix index (← err_list[i]?)
  ecEncodeData ec.maxSize k err_num tbls (slot recover_srcs) (slot recover_outp) mem

/-- The object and the memory afterwards, and the value returned.
mirrors src/IsaEC.cpp:127-158 -/
def decode (ec : IsaEC k n) (matrix : Vector Ptr (k + n)) (err_list : Vector UInt8 err_num) (size : Nat)
    (mem : Mem) : Option (IsaEC k n × Mem × Bool) := do
  let ec ← loadDecodeTables ec err_list
  let total_len := toInt (← divSize size k)
  let mem ← forStep (toSize total_len) ec.maxSize mem (recoverBlock ec ec.g_tbls matrix err_list)
  return (ec, mem, true)

/-- `total_len` is a `size_t` here (`iter_num` is never read).
mirrors src/IsaEC.cpp:160-191 -/
def decodePtr (ec : IsaEC k n) (matrix : Vector Ptr (k + n)) (err_list : Vector UInt8 err_num) (size : Nat)
    (mem : Mem) : Option (IsaEC k n × Mem × Bool) := do
  let ec ← loadDecodeTables ec err_list
  let mem ← forStep size ec.maxSize mem (recoverBlock ec ec.g_tbls matrix err_list)
  return (ec, mem, true)

/-- mirrors src/IsaEC.cpp:193-200 -/
def cacheGTbls (ec : IsaEC k n) (err_list : Vector UInt8 err_num) : Option (IsaEC k n × Bool) := do
  let (s, g_tbls_decode) ← decodeTables ec err_list ec.g_tbls_decode
  return ({ ec with toScratch := s, g_tbls_decode }, true)

/-- mirrors src/IsaEC.cpp:202-228 -/
def cacheDecodePtr (ec : IsaEC k n) (matrix : Vector Ptr (k + n)) (err_list : Vector UInt8 err_num)
    (size : Nat) (mem : Mem) : Option (Mem × Bool) := do
  let total_len := toInt (← divSize size k)
  let mem ← forStep (toSize total_len) ec.maxSize mem (recoverBlock ec ec.g_tbls_decode matrix err_list)
  return (mem, true)

end

end IsaEC

end ErasureCode
