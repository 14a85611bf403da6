import Mathlib

/-!
# Copies of C strings into buffers

A buffer has the capacity it was declared with, and a string ends at the first zero
that is found from where it starts. `strcpy` writes the string and its zero;
`strncpy` writes exactly as many characters as it is told, with zeros after the
string – and without a zero where the string has as many or more.

So a copy can do two wrong things: write past the end of the buffer, where
`Buffer.write` has no result, or leave the buffer without a zero. A copy that does
neither is an assignment to a variable that holds a string (`Frame.run_of_fits`),
and whether one does is a matter of lengths (`Frame.sound_iff`).

The characters are those of any type; `nul` is the zero.
-/

namespace CString

variable {α : Type*} [DecidableEq α] (nul : α)

/-- The string that starts where `s` does. -/
def text (s : List α) : List α := s.takeWhile (fun a => a != nul)

def strlen (s : List α) : ℕ := (text nul s).length

/-- What `strcpy` writes. -/
def strcpy (s : List α) : List α := text nul s ++ [nul]

/-- What `strncpy` writes. -/
def strncpy (s : List α) (n : ℕ) : List α :=
  (text nul s).take n ++ List.replicate (n - strlen nul s) nul

theorem nul_notMem_text (s : List α) : nul ∉ text nul s := by
  intro h
  simpa using List.mem_takeWhile_imp h

theorem text_of_notMem {s : List α} (h : nul ∉ s) : text nul s = s := by
  refine List.takeWhile_eq_self_iff.mpr (fun a ha => ?_)
  rw [bne_iff_ne]
  rintro rfl
  exact h ha

/-- A string is read up to its zero. -/
theorem text_append_nul (s rest : List α) : text nul (text nul s ++ nul :: rest) = text nul s := by
  have hall : ∀ a ∈ text nul s, (a != nul) = true := by
    intro a ha
    rw [bne_iff_ne]
    rintro rfl
    exact nul_notMem_text a s ha
  show (text nul s ++ nul :: rest).takeWhile (fun a => a != nul) = text nul s
  rw [List.takeWhile_append_of_pos hall]
  simp

theorem strlen_le (s : List α) : strlen nul s ≤ s.length :=
  (List.takeWhile_prefix _).length_le

@[simp] theorem length_strcpy (s : List α) : (strcpy nul s).length = strlen nul s + 1 := by
  simp [strcpy, strlen]

@[simp] theorem length_strncpy (s : List α) (n : ℕ) : (strncpy nul s n).length = n := by
  rw [strncpy, List.length_append, List.length_take, List.length_replicate]
  show min n (strlen nul s) + (n - strlen nul s) = n
  omega

theorem nul_mem_strcpy (s : List α) : nul ∈ strcpy nul s := by simp [strcpy]

/-- **`strncpy` leaves out the zero** of a string that has as many characters as it
copies. -/
theorem nul_mem_strncpy_iff (s : List α) (n : ℕ) : nul ∈ strncpy nul s n ↔ strlen nul s < n := by
  have htake : nul ∉ (text nul s).take n :=
    fun h => nul_notMem_text nul s (List.mem_of_mem_take h)
  rw [strncpy, List.mem_append, List.mem_replicate, or_iff_right htake,
    and_iff_left (rfl : nul = nul), ← Nat.pos_iff_ne_zero, Nat.sub_pos_iff_lt]

/-- A string that fits is written with its zero. -/
theorem strncpy_eq (s : List α) {n : ℕ} (h : strlen nul s < n) :
    strncpy nul s n = text nul s ++ nul :: List.replicate (n - strlen nul s - 1) nul := by
  have hlen : n - strlen nul s = (n - strlen nul s - 1) + 1 := by omega
  rw [strncpy, List.take_of_length_le (show (text nul s).length ≤ n from h.le), hlen,
    List.replicate_succ, Nat.add_sub_cancel]

end CString

/-! ## Buffers -/

/-- A buffer that was declared with a capacity. -/
@[ext] structure Buffer (α : Type*) (capacity : ℕ) where
  chars : List α
  length_chars : chars.length = capacity

namespace Buffer

open CString

variable {α : Type*} {capacity : ℕ}

/-- `memset`. -/
def memset (a : α) : Buffer α capacity := ⟨List.replicate capacity a, List.length_replicate⟩

/-- The buffer after characters have been written from its start on, none where they
do not fit. -/
def write (b : Buffer α capacity) (data : List α) : Option (Buffer α capacity) :=
  if h : data.length ≤ capacity then
    some ⟨data ++ b.chars.drop data.length, by
      rw [List.length_append, List.length_drop, b.length_chars]
      omega⟩
  else none

theorem write_eq_some_iff {b c : Buffer α capacity} {data : List α} :
    b.write data = some c
      ↔ data.length ≤ capacity ∧ c.chars = data ++ b.chars.drop data.length := by
  unfold write
  split
  · rename_i h
    rw [Option.some_inj, Buffer.ext_iff, eq_comm, and_iff_right h]
  · rename_i h
    simp [h]

theorem write_eq_none_iff {b : Buffer α capacity} {data : List α} :
    b.write data = none ↔ capacity < data.length := by
  unfold write
  split <;> simp <;> omega

variable [DecidableEq α] (nul : α)

/-- The string in a buffer. -/
def string (b : Buffer α capacity) : List α := text nul b.chars

/-- **A copy stays inside and leaves a zero.** -/
def Takes (b : Buffer α capacity) (data : List α) : Prop :=
  ∃ c, b.write data = some c ∧ nul ∈ c.chars

@[simp] theorem string_memset : (memset nul : Buffer α capacity).string nul = [] := by
  cases capacity with
  | zero => rfl
  | succ n =>
    show text nul (List.replicate (n + 1) nul) = []
    rw [List.replicate_succ, text, List.takeWhile_cons_of_neg (by simp)]

theorem takes_strcpy_iff (b : Buffer α capacity) (s : List α) :
    b.Takes nul (strcpy nul s) ↔ strlen nul s < capacity := by
  unfold Takes
  simp only [write_eq_some_iff, length_strcpy]
  constructor
  · rintro ⟨c, ⟨hlen, -⟩, -⟩
    exact hlen
  · intro h
    obtain ⟨c, hc⟩ : ∃ c, b.write (strcpy nul s) = some c := by
      refine Option.ne_none_iff_exists'.mp (fun hnone => ?_)
      rw [write_eq_none_iff, length_strcpy] at hnone
      omega
    rw [write_eq_some_iff, length_strcpy] at hc
    refine ⟨c, hc, ?_⟩
    rw [hc.2]
    exact List.mem_append_left _ (nul_mem_strcpy nul s)

/-- **Copying as many characters as the buffer has, or more**: more are too many, and
the zero is there where the string is shorter. -/
theorem takes_strncpy_iff (b : Buffer α capacity) (s : List α) {n : ℕ} (hn : capacity ≤ n) :
    b.Takes nul (strncpy nul s n) ↔ n ≤ capacity ∧ strlen nul s < n := by
  have hdrop : b.chars.drop n = [] := by
    rw [List.drop_eq_nil_iff, b.length_chars]
    exact hn
  unfold Takes
  simp only [write_eq_some_iff, length_strncpy, hdrop, List.append_nil]
  rw [← nul_mem_strncpy_iff]
  constructor
  · rintro ⟨c, ⟨hlen, hc⟩, hmem⟩
    exact ⟨hlen, hc ▸ hmem⟩
  · rintro ⟨hlen, hmem⟩
    exact ⟨⟨strncpy nul s n, by rw [length_strncpy]; omega⟩, ⟨hlen, rfl⟩, hmem⟩

/-- The string in a buffer is the one that has been copied with its zero. -/
theorem string_of_write {b c : Buffer α capacity} {s rest : List α}
    (h : b.write (text nul s ++ nul :: rest) = some c) : c.string nul = text nul s := by
  show text nul c.chars = _
  rw [(write_eq_some_iff.mp h).2, List.append_assoc, List.cons_append]
  exact text_append_nul nul s _

end Buffer

/-! ## Copies -/

/-- **A copy**: `strcpy`, or `strncpy` with a bound. -/
structure StringCopy (κ α : Type*) where
  dest : κ
  source : List α
  bound : Option ℕ

namespace StringCopy

open CString

variable {κ α : Type*} [DecidableEq α] (nul : α) (capacity : κ → ℕ)

/-- What is written. -/
def data (c : StringCopy κ α) : List α :=
  match c.bound with
  | none => strcpy nul c.source
  | some n => strncpy nul c.source n

/-- A bound leaves nothing of the buffer out. -/
def Covers (c : StringCopy κ α) : Prop := ∀ n, c.bound = some n → capacity c.dest ≤ n

/-- **The lengths are right.** -/
def Fits (c : StringCopy κ α) : Prop :=
  match c.bound with
  | none => strlen nul c.source < capacity c.dest
  | some n => n ≤ capacity c.dest ∧ strlen nul c.source < n

/-- The copy as an assignment to a variable that holds a string. -/
def assign [DecidableEq κ] (s : κ → List α) (c : StringCopy κ α) : κ → List α :=
  Function.update s c.dest (text nul c.source)

variable {nul capacity}

theorem takes_iff {c : StringCopy κ α} (hc : c.Covers capacity) (b : Buffer α (capacity c.dest)) :
    b.Takes nul (c.data nul) ↔ c.Fits nul capacity := by
  obtain ⟨dest, source, bound⟩ := c
  cases bound with
  | none => exact b.takes_strcpy_iff nul source
  | some n => exact b.takes_strncpy_iff nul source (hc n rfl)

/-- What is written starts with the string and its zero. -/
theorem Fits.data_eq {c : StringCopy κ α} (h : c.Fits nul capacity) :
    ∃ rest, c.data nul = text nul c.source ++ nul :: rest := by
  obtain ⟨dest, source, bound⟩ := c
  cases bound with
  | none => exact ⟨[], rfl⟩
  | some n => exact ⟨_, strncpy_eq nul source h.2⟩

end StringCopy

/-! ## The buffers of a function -/

/-- The buffers a function has declared. -/
abbrev Frame {κ : Type*} (α : Type*) (capacity : κ → ℕ) := (k : κ) → Buffer α (capacity k)

namespace Frame

open CString

variable {κ α : Type*} [DecidableEq κ] [DecidableEq α] {capacity : κ → ℕ} (nul : α)

/-- One copy, none where it writes past the end of its buffer. -/
def perform (f : Frame α capacity) (c : StringCopy κ α) : Option (Frame α capacity) :=
  ((f c.dest).write (c.data nul)).map (Function.update f c.dest)

/-- The copies of a run. -/
def run (f : Frame α capacity) (cs : List (StringCopy κ α)) : Option (Frame α capacity) :=
  cs.foldlM (perform nul) f

/-- **Every copy of a run stays inside its buffer and leaves a zero there.** -/
def Sound : Frame α capacity → List (StringCopy κ α) → Prop
  | _, [] => True
  | f, c :: cs =>
    ∃ b, (f c.dest).write (c.data nul) = some b ∧ nul ∈ b.chars
      ∧ Sound (Function.update f c.dest b) cs

/-- The strings in the buffers. -/
def strings (f : Frame α capacity) (k : κ) : List α := (f k).string nul

variable {nul}

theorem run_append (f : Frame α capacity) (cs ds : List (StringCopy κ α)) :
    f.run nul (cs ++ ds) = (f.run nul cs).bind fun g => g.run nul ds := List.foldlM_append

/-- **Whether the copies go well is a matter of lengths**: what the buffers held before
does not count. -/
theorem sound_iff {cs : List (StringCopy κ α)} (hcs : ∀ c ∈ cs, c.Covers capacity)
    (f : Frame α capacity) : f.Sound nul cs ↔ ∀ c ∈ cs, c.Fits nul capacity := by
  induction cs generalizing f with
  | nil => simp [Sound]
  | cons c cs ih =>
    rw [List.forall_mem_cons] at hcs
    have htakes : (f c.dest).Takes nul (c.data nul) ↔ c.Fits nul capacity :=
      StringCopy.takes_iff hcs.1 (f c.dest)
    rw [List.forall_mem_cons, ← htakes]
    constructor
    · rintro ⟨b, hwrite, hmem, hsound⟩
      exact ⟨⟨b, hwrite, hmem⟩, (ih hcs.2 _).mp hsound⟩
    · rintro ⟨⟨b, hwrite, hmem⟩, hfits⟩
      exact ⟨b, hwrite, hmem, (ih hcs.2 _).mpr hfits⟩

/-- A copy that goes well assigns its string. -/
theorem perform_of_fits {c : StringCopy κ α} (hc : c.Covers capacity) (h : c.Fits nul capacity)
    (f : Frame α capacity) :
    ∃ g, f.perform nul c = some g
      ∧ g.strings nul = StringCopy.assign nul (f.strings nul) c := by
  obtain ⟨b, hwrite, -⟩ := (StringCopy.takes_iff hc (f c.dest)).mpr h
  obtain ⟨rest, hdata⟩ := h.data_eq
  have hstring : b.string nul = text nul c.source := by
    rw [hdata] at hwrite
    exact Buffer.string_of_write nul hwrite
  refine ⟨Function.update f c.dest b, ?_, ?_⟩
  · rw [perform, hwrite, Option.map_some]
  · funext k
    by_cases hk : k = c.dest
    · subst hk
      simp only [strings, StringCopy.assign, Function.update_self, hstring]
    · simp only [strings, StringCopy.assign, Function.update_of_ne hk]

/-- **Copies that go well are assignments**, one after the other. -/
theorem run_of_fits {cs : List (StringCopy κ α)} (hcs : ∀ c ∈ cs, c.Covers capacity)
    (h : ∀ c ∈ cs, c.Fits nul capacity) (f : Frame α capacity) :
    ∃ g, f.run nul cs = some g
      ∧ g.strings nul = cs.foldl (StringCopy.assign nul) (f.strings nul) := by
  induction cs generalizing f with
  | nil => exact ⟨f, rfl, rfl⟩
  | cons c cs ih =>
    rw [List.forall_mem_cons] at hcs h
    obtain ⟨g, hperform, hg⟩ := perform_of_fits hcs.1 h.1 f
    obtain ⟨r, hrun, hr⟩ := ih hcs.2 h.2 g
    refine ⟨r, ?_, ?_⟩
    · show (perform nul f c >>= fun g => run nul g cs) = some r
      rw [hperform]
      exact hrun
    · rw [hr, hg, List.foldl_cons]

end Frame
