import Mathlib

/-!
# C strings

Paths, names and values reach the services as C strings. A `Text` lists the
characters of such a string before its terminating NUL, one for each byte, so
that `List.length` is `strlen` and a position in the list is a byte offset.

iRODS keeps paths in fixed buffers of `MAX_NAME_LEN` bytes, and the services
fill them with `rstrcpy` and `snprintf`, which cut off what does not fit
(`rstrcpy`). The cut is part of the code: a path that is too long is not
refused, it names something else.
-/

/-- The characters of a C string, one for each byte before the NUL. -/
abbrev Text := List Char

/-- The content of a data object or of a buffer, one character for each byte.
Unlike a C string it may hold NULs. -/
abbrev Bytes := List Char

namespace Text

/-- What a C string in a buffer holds: the bytes before the first NUL. -/
def ofBuffer (buf : List Char) : Text := buf.takeWhile (fun c => c != '\x00')

theorem ofBuffer_of_no_nul {buf : List Char} (h : '\x00' ∉ buf) : ofBuffer buf = buf := by
  refine List.takeWhile_eq_self_iff.mpr (fun c hc => ?_)
  rw [bne_iff_ne]
  rintro rfl
  exact h hc

/-- `MAX_NAME_LEN`, the size of the iRODS path buffers. -/
def maxNameLen : ℕ := 1088

/-- `rstrcpy(dest, s, MAX_NAME_LEN)`, and `snprintf` into a buffer of that
size: the last byte is kept for the NUL, what does not fit before it is cut
off. -/
def rstrcpy (s : Text) : Text := s.take (maxNameLen - 1)

/-- A text that fits its buffer is copied whole. -/
theorem rstrcpy_of_fits {s : Text} (h : s.length < maxNameLen) : rstrcpy s = s :=
  List.take_of_length_le (Nat.le_sub_one_of_lt h)

/-- `strncmp(s, t, n) == 0`: the first `n` characters agree, an end counting as
a character of its own. -/
def strncmpEq (s t : Text) (n : ℕ) : Bool := s.take n == t.take n

/-- Comparing as many characters as `t` has is asking for a prefix. -/
theorem strncmpEq_length_iff (s t : Text) :
    strncmpEq s t t.length = true ↔ t <+: s := by
  rw [strncmpEq, beq_iff_eq, List.take_length, List.prefix_iff_eq_take]
  exact eq_comm

/-- What `strtol` skips. -/
def isSpace (c : Char) : Bool := c == ' ' || (9 ≤ c.toNat && c.toNat ≤ 13)

/-- What is left of a text after white space and a sign, and whether the sign is a
minus. -/
def dropSign (s : Text) : Bool × Text :=
  match s.dropWhile isSpace with
  | '-' :: t => (true, t)
  | '+' :: t => (false, t)
  | t => (false, t)

/-- `strtoll(s, NULL, 10)`: at most as far from zero as a `long long` can be. -/
def strtoll (s : Text) : ℤ :=
  let (neg, t) := dropSign s
  let n : ℕ := (t.takeWhile Char.isDigit).foldl (fun n c => 10 * n + (c.toNat - 48)) 0
  if neg then max (-n) (-2 ^ 63) else min n (2 ^ 63 - 1)

/-- Where `strtol` ends: behind the digits, and at the start where there are none. -/
def strtolEnd (s : Text) : Text :=
  match (dropSign s).2 with
  | c :: t => if c.isDigit then t.dropWhile Char.isDigit else s
  | [] => s

/-- `dir + "/" + name`, the way every service joins a path. -/
def join (dir name : Text) : Text := dir ++ '/' :: name

@[simp] theorem length_join (dir name : Text) :
    (join dir name).length = dir.length + name.length + 1 := by
  rw [join, List.length_append, List.length_cons, Nat.add_assoc]

/-- Names joined to one directory are told apart. -/
theorem join_right_injective (dir : Text) : Function.Injective (join dir) := by
  intro a b h
  exact (List.cons.inj (List.append_cancel_left h)).2

/-- Joining is associative: a name may itself be a relative path. -/
theorem join_join (dir name rest : Text) :
    join (join dir name) rest = join dir (join name rest) := by
  simp only [join, List.append_assoc, List.cons_append]

/-- What follows a directory and its slash is the name. -/
theorem drop_join (dir name : Text) :
    (join dir name).drop (dir.length + 1) = name := by
  rw [join, List.drop_append, List.drop_eq_nil_of_le (Nat.le_succ _),
    Nat.add_sub_cancel_left]
  rfl

/-- The collection a path is in: what is before its last slash, and the root
where that is nothing. -/
def parent (path : Text) : Text :=
  let dir := ((path.reverse.dropWhile (fun c => c != '/')).drop 1).reverse
  if dir = [] then ['/'] else dir

theorem parent_join {dir name : Text} (hdir : dir ≠ []) (hname : '/' ∉ name) :
    parent (join dir name) = dir := by
  have hall : ∀ c ∈ name.reverse, (c != '/') = true := by
    intro c hc
    rw [bne_iff_ne]
    rintro rfl
    exact hname (List.mem_reverse.mp hc)
  have hdrop : (join dir name).reverse.dropWhile (fun c => c != '/') = '/' :: dir.reverse := by
    rw [join, List.reverse_append, List.reverse_cons, List.append_assoc,
      List.dropWhile_append_of_pos hall]
    rfl
  unfold parent
  rw [hdrop]
  simp [hdir]

/-- Two names that stand at one place of a path are one name. -/
theorem name_eq_of_prefix {pre x y path : Text} (hx : '/' ∉ x) (hy : '/' ∉ y)
    (h₁ : pre ++ x ++ ['/'] <+: path) (h₂ : pre ++ y ++ ['/'] <+: path) : x = y := by
  obtain ⟨s, rfl⟩ := h₁
  obtain ⟨t, ht⟩ := h₂
  have hcut : ∀ {n : Text} (s : Text), '/' ∉ n →
      (n ++ '/' :: s).takeWhile (fun c => c != '/') = n := by
    intro n s hn
    rw [List.takeWhile_append_of_pos (fun c hc => by
      rw [bne_iff_ne]
      exact fun h => hn (h ▸ hc))]
    simp
  have heq : y ++ '/' :: t = x ++ '/' :: s := by
    refine List.append_cancel_left (?_ : pre ++ _ = pre ++ _)
    simpa only [List.append_assoc, List.singleton_append] using ht
  rw [← hcut s hx, ← heq, hcut t hy]

/-- What comes after a slash does not stand in a name. -/
theorem not_prefix_name {pre x y : Text} (hx : '/' ∉ x) :
    ¬ (pre ++ y ++ ['/'] <+: pre ++ x) := by
  rintro ⟨s, hs⟩
  rw [List.append_assoc, List.append_assoc] at hs
  exact hx (List.append_cancel_left hs ▸ by simp)

end Text
