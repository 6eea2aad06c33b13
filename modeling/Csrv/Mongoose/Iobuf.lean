import Csrv.CString

/-!
# Buffers of a connection

`struct mg_iobuf` and its operations. The bytes in use never exceed the size: this is a field of
the structure, and `mg_iobuf_resize` takes as an argument that the bytes in use fit the new size,
since it does not shorten them. `calloc` says which sizes the allocator can serve.

* `mgIobufAppend_buf`: an append adds all of its bytes or none.
-/

namespace Csrv.Mongoose

/-- `struct mg_iobuf`: `buf` holds the first `len` bytes. -/
structure Iobuf where
  size : ℕ
  buf : Bytes
  length_le : buf.length ≤ size

namespace Iobuf

def empty : Iobuf := ⟨0, [], Nat.le_refl 0⟩

/-- Bytes written behind those in use. -/
def push (io : Iobuf) (d : Bytes) (h : io.buf.length + d.length ≤ io.size) : Iobuf :=
  ⟨io.size, io.buf ++ d, by rw [List.length_append]; exact h⟩

@[simp] theorem push_buf (io : Iobuf) (d : Bytes) (h : io.buf.length + d.length ≤ io.size) :
    (io.push d h).buf = io.buf ++ d := rfl

@[simp] theorem push_size (io : Iobuf) (d : Bytes) (h : io.buf.length + d.length ≤ io.size) :
    (io.push d h).size = io.size := rfl

end Iobuf

variable {calloc : ℕ → Bool} {io : Iobuf} {n : ℕ}

/-- `mg_iobuf_resize`: whether it succeeds, and the buffer. -/
def mgIobufResize (calloc : ℕ → Bool) (io : Iobuf) (newSize : ℕ)
    (h : newSize = 0 ∨ io.buf.length ≤ newSize) : Bool × Iobuf :=
  if h0 : newSize = 0 then (true, .empty)
  else if newSize ≠ io.size then
    if calloc newSize then (true, ⟨newSize, io.buf, h.resolve_left h0⟩) else (false, io)
  else (true, io)

theorem mgIobufResize_buf (h : n = 0 ∨ io.buf.length ≤ n) (h0 : n ≠ 0) :
    (mgIobufResize calloc io n h).2.buf = io.buf := by
  unfold mgIobufResize
  rw [dif_neg h0]
  split_ifs <;> rfl

theorem mgIobufResize_of_calloc (h : n = 0 ∨ io.buf.length ≤ n) (hc : calloc n = true) :
    (mgIobufResize calloc io n h).1 = true ∧ (mgIobufResize calloc io n h).2.size = n := by
  unfold mgIobufResize
  split_ifs with h0 hne
  · exact ⟨rfl, h0.symm⟩
  · exact ⟨rfl, rfl⟩
  · exact ⟨rfl, (not_not.mp hne).symm⟩

def mgIoSize : ℕ := 2048

/-- The size that `mg_iobuf_append` asks for: `n` bytes, and up to the next multiple. -/
def alignedSize (n : ℕ) : ℕ := n + mgIoSize - (n + mgIoSize) % mgIoSize

theorem le_alignedSize (n : ℕ) : n ≤ alignedSize n := by
  have hlt : (n + mgIoSize) % mgIoSize < mgIoSize := Nat.mod_lt _ (by decide)
  unfold alignedSize
  omega

theorem alignedSize_ne_zero (n : ℕ) : alignedSize n ≠ 0 := by
  have hlt : (n + mgIoSize) % mgIoSize < mgIoSize := Nat.mod_lt _ (by decide)
  unfold alignedSize
  omega

/-- The buffer after the attempt of `mg_iobuf_append` to make room for `d`. -/
def makeRoom (calloc : ℕ → Bool) (io : Iobuf) (d : Bytes) : Iobuf :=
  (mgIobufResize calloc io (alignedSize (io.buf.length + d.length))
    (.inr ((Nat.le_add_right _ _).trans (le_alignedSize _)))).2

theorem makeRoom_buf (calloc : ℕ → Bool) (io : Iobuf) (d : Bytes) :
    (makeRoom calloc io d).buf = io.buf := by
  unfold makeRoom
  exact @mgIobufResize_buf calloc io _ _ (alignedSize_ne_zero _)

theorem makeRoom_size {d : Bytes}
    (h : calloc (alignedSize (io.buf.length + d.length)) = true) :
    (makeRoom calloc io d).size = alignedSize (io.buf.length + d.length) := by
  unfold makeRoom
  exact (@mgIobufResize_of_calloc calloc io _ _ h).2

theorem makeRoom_fits {d : Bytes}
    (h : alignedSize (io.buf.length + d.length) = (makeRoom calloc io d).size) :
    (makeRoom calloc io d).buf.length + d.length ≤ (makeRoom calloc io d).size := by
  rw [makeRoom_buf, ← h]
  exact le_alignedSize (io.buf.length + d.length)

/-- `mg_iobuf_append` with the chunk size that every caller gives it: the number of bytes
appended, and the buffer. -/
def mgIobufAppend (calloc : ℕ → Bool) (io : Iobuf) (d : Bytes) : ℕ × Iobuf :=
  if h : io.buf.length + d.length > io.size then
    if hs : alignedSize (io.buf.length + d.length) = (makeRoom calloc io d).size then
      (d.length, (makeRoom calloc io d).push d (makeRoom_fits hs))
    else (0, makeRoom calloc io d)
  else (d.length, io.push d (Nat.not_lt.mp h))

/-- **All or nothing.** -/
theorem mgIobufAppend_buf (calloc : ℕ → Bool) (io : Iobuf) (d : Bytes) :
    (mgIobufAppend calloc io d).2.buf = io.buf ++ d ∨
      ((mgIobufAppend calloc io d).2.buf = io.buf ∧ ∃ n, calloc n = false) := by
  unfold mgIobufAppend
  split_ifs with h hs
  · left
    show (makeRoom calloc io d).buf ++ d = io.buf ++ d
    rw [makeRoom_buf]
  · right
    refine ⟨makeRoom_buf calloc io d, alignedSize (io.buf.length + d.length), ?_⟩
    exact eq_false_of_ne_true fun hc => hs (makeRoom_size hc).symm
  · exact .inl rfl

/-- `mg_iobuf_delete`. -/
def mgIobufDelete (io : Iobuf) (len : ℕ) : Iobuf :=
  ⟨io.size, io.buf.drop len, by
    rw [List.length_drop]
    exact (Nat.sub_le _ _).trans io.length_le⟩

end Csrv.Mongoose
