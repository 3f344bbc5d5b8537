import ErasureCode.Core.Run
import ErasureCode.IsaEC.Decoding

/-!
# Histories of an object

A history is a list of calls of public methods, each with the memory it finds:
between two calls the program may do anything to the strips. `exec` is what a
call does to the object.

`exec_cases` lists what that can be: nothing, the tables of `decode` and
`decode_ptr`, or those of `cache_g_tbls`. The encode matrix and the parameters
never change (`exec_sameCode`), so every reachable object is `Sound`.
-/
namespace ErasureCode.IsaEC

open ErasureCode.Core Isal

variable {k n : Nat}

/-- A public method and its arguments. -/
inductive Op (k n : Nat) where
  | encode (in_ : Vector Ptr k) (out : Vector Ptr n) (size : Nat)
  | encodePtr (in_ : Vector Ptr k) (out : Vector Ptr n) (size : Nat)
  | decode (matrix : Vector Ptr (k + n)) (err_num : Nat) (err_list : Vector UInt8 err_num) (size : Nat)
  | decodePtr (matrix : Vector Ptr (k + n)) (err_num : Nat) (err_list : Vector UInt8 err_num) (size : Nat)
  | cacheGTbls (err_num : Nat) (err_list : Vector UInt8 err_num)
  | cacheDecodePtr (matrix : Vector Ptr (k + n)) (err_num : Nat) (err_list : Vector UInt8 err_num)
      (size : Nat)

/-- A call, and the memory it is made on. -/
structure Call (k n : Nat) where
  op : Op k n
  mem : Mem

/-- The object after a call. -/
def exec (c : Call k n) (ec : IsaEC k n) : Option (IsaEC k n) :=
  match c.op with
  | .encode in_ out size => (ec.encode in_ out size c.mem).map fun _ => ec
  | .encodePtr in_ out size => (ec.encodePtr in_ out size c.mem).map fun _ => ec
  | .decode matrix _ err_list size => (ec.decode matrix err_list size c.mem).map fun r => r.1
  | .decodePtr matrix _ err_list size => (ec.decodePtr matrix err_list size c.mem).map fun r => r.1
  | .cacheGTbls _ err_list => (ec.cacheGTbls err_list).map fun r => r.1
  | .cacheDecodePtr matrix _ err_list size => (ec.cacheDecodePtr matrix err_list size c.mem).map fun _ => ec

/-- The object and the memory after a call. -/
def call (ec : IsaEC k n) (mem : Mem) : Op k n → Option (IsaEC k n × Mem)
  | .encode in_ out size => (ec.encode in_ out size mem).map fun r => (ec, r.1)
  | .encodePtr in_ out size => (ec.encodePtr in_ out size mem).map fun r => (ec, r.1)
  | .decode matrix _ err_list size => (ec.decode matrix err_list size mem).map fun r => (r.1, r.2.1)
  | .decodePtr matrix _ err_list size => (ec.decodePtr matrix err_list size mem).map fun r => (r.1, r.2.1)
  | .cacheGTbls _ err_list => (ec.cacheGTbls err_list).map fun r => (r.1, mem)
  | .cacheDecodePtr matrix _ err_list size => (ec.cacheDecodePtr matrix err_list size mem).map fun r => (ec, r.1)

/-- The object can be what some history has made of a new one. -/
def Reachable (maxSize thread_num : Nat) (ec : IsaEC k n) : Prop :=
  ∃ raw ec₀ calls, new raw maxSize thread_num = some ec₀ ∧ run exec calls ec₀ = some ec

/-- `P` of the list of a `decode` or `decode_ptr` call. -/
def Call.OnDecode (P : ∀ err_num, Vector UInt8 err_num → Prop) (c : Call k n) : Prop :=
  match c.op with
  | .decode _ e l _ | .decodePtr _ e l _ => P e l
  | _ => True

/-- `P` of the list of a `cache_g_tbls` call. -/
def Call.OnCache (P : ∀ err_num, Vector UInt8 err_num → Prop) (c : Call k n) : Prop :=
  match c.op with
  | .cacheGTbls e l => P e l
  | _ => True

/-- A call's effect on the object. -/
theorem exec_cases {c : Call k n} {ec ec' : IsaEC k n} (h : exec c ec = some ec') :
    (ec' = ec ∧ (∀ P, c.OnDecode P) ∧ ∀ P, c.OnCache P) ∨
    (∃ e, ∃ l : Vector UInt8 e, loadDecodeTables ec l = some ec' ∧ (∀ P, c.OnDecode P ↔ P e l) ∧
      ∀ P, c.OnCache P) ∨
    (∃ e, ∃ l : Vector UInt8 e, cacheGTbls ec l = some (ec', true) ∧ (∀ P, c.OnDecode P) ∧
      ∀ P, c.OnCache P ↔ P e l) := by
  obtain ⟨op, mem⟩ := c
  cases op with
  | encode in_ out size =>
    obtain ⟨_, _, rfl⟩ := Option.map_eq_some_iff.1 h
    exact .inl ⟨rfl, fun _ => trivial, fun _ => trivial⟩
  | encodePtr in_ out size =>
    obtain ⟨_, _, rfl⟩ := Option.map_eq_some_iff.1 h
    exact .inl ⟨rfl, fun _ => trivial, fun _ => trivial⟩
  | decode matrix e l size =>
    obtain ⟨r, hr, rfl⟩ := Option.map_eq_some_iff.1 h
    obtain ⟨ec', he, hr⟩ := Option.bind_eq_some_iff.1 hr
    obtain ⟨_, _, hr⟩ := Option.bind_eq_some_iff.1 hr
    obtain ⟨_, _, hr⟩ := Option.bind_eq_some_iff.1 hr
    cases hr
    exact .inr (.inl ⟨e, l, he, fun _ => Iff.rfl, fun _ => trivial⟩)
  | decodePtr matrix e l size =>
    obtain ⟨r, hr, rfl⟩ := Option.map_eq_some_iff.1 h
    obtain ⟨ec', he, hr⟩ := Option.bind_eq_some_iff.1 hr
    obtain ⟨_, _, hr⟩ := Option.bind_eq_some_iff.1 hr
    cases hr
    exact .inr (.inl ⟨e, l, he, fun _ => Iff.rfl, fun _ => trivial⟩)
  | cacheGTbls e l =>
    obtain ⟨r, hr, rfl⟩ := Option.map_eq_some_iff.1 h
    have ht : r.2 = true := by
      obtain ⟨_, _, hr⟩ := Option.bind_eq_some_iff.1 hr
      cases hr
      rfl
    refine .inr (.inr ⟨e, l, ?_, fun _ => trivial, fun _ => Iff.rfl⟩)
    rw [hr, ← ht]
  | cacheDecodePtr matrix e l size =>
    obtain ⟨_, _, rfl⟩ := Option.map_eq_some_iff.1 h
    exact .inl ⟨rfl, fun _ => trivial, fun _ => trivial⟩

section
variable {e : Nat} {ec ec' : IsaEC k n}

theorem SameCode.refl (ec : IsaEC k n) : SameCode ec ec := ⟨rfl, rfl, rfl⟩

theorem SameCode.trans {ec'' : IsaEC k n} (h : SameCode ec ec') (h' : SameCode ec' ec'') :
    SameCode ec ec'' :=
  ⟨h'.1.trans h.1, h'.2.trans h.2, h'.3.trans h.3⟩

theorem loadDecodeTables_sameCode {l : Vector UInt8 e} (h : loadDecodeTables ec l = some ec') :
    SameCode ec ec' := by
  obtain ⟨_, _, h⟩ := Option.bind_eq_some_iff.1 h
  cases h
  exact ⟨rfl, rfl, rfl⟩

theorem cacheGTbls_sameCode {l : Vector UInt8 e} {r : Bool} (h : cacheGTbls ec l = some (ec', r)) :
    SameCode ec ec' := by
  obtain ⟨_, _, h⟩ := Option.bind_eq_some_iff.1 h
  cases h
  exact ⟨rfl, rfl, rfl⟩

theorem exec_sameCode {c : Call k n} (h : exec c ec = some ec') : SameCode ec ec' := by
  obtain ⟨rfl, -⟩ | ⟨e, l, h, -⟩ | ⟨e, l, h, -⟩ := exec_cases h
  · exact SameCode.refl ec'
  · exact loadDecodeTables_sameCode h
  · exact cacheGTbls_sameCode h

theorem run_sameCode {calls : List (Call k n)} (h : run exec calls ec = some ec') : SameCode ec ec' :=
  run_inv (I := SameCode ec) (fun _ _ _ _ hs hc => hs.trans (exec_sameCode hc)) (SameCode.refl ec) h

/-- Every reachable object has the generator matrix and its parameters. -/
theorem Reachable.sound {maxSize thread_num : Nat} (h : Reachable maxSize thread_num ec) :
    Sound ec ∧ ec.maxSize = maxSize ∧ ec.thread_num = thread_num := by
  obtain ⟨raw, ec₀, calls, hnew, hrun⟩ := h
  have hf := new_fresh hnew
  have hs := run_sameCode hrun
  exact ⟨hs.sound hf.sound, hs.maxSize.trans hf.maxSize_eq, hs.thread_num.trans hf.thread_num_eq⟩

end

end ErasureCode.IsaEC
