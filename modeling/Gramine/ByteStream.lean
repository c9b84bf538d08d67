import Mathlib

/-!
# Reading a stream in pieces

A `Source` has the elements still to come, and a script of how the next reads go: a read may
have to be repeated, may fail, or returns some of what is left, at least one element unless
the stream is at its end. `fill` reads until there is enough; `fill_spec` says that what it
has and what is left is the stream, whatever the script. Numbers are stored with the least
significant byte first.
-/

open List

namespace ByteStream

/-- How a read goes. -/
inductive Read
  | retry
  | fail (err : Int)
  /-- It returns no more than this many elements after the first. -/
  | more (n : Nat)
  deriving DecidableEq, Repr

/-- What is left of the stream, and how it will be cut. With the script at its end, a read
returns all it can. -/
structure Source (B : Type) where
  left : List B
  script : List Read
  deriving DecidableEq, Repr

/-- What a read returns. -/
inductive Got (B : Type)
  | retry
  | fail (err : Int)
  | some (l : List B)

variable {B : Type} {src src' : Source B} {k need cap : Nat} {buf buf' : List B}

/-- A read of at most `k` elements. -/
def Source.read (src : Source B) (k : Nat) : Got B × Source B :=
  match src.script with
  | [] => (.some (src.left.take k), ⟨src.left.drop k, []⟩)
  | .retry :: script => (.retry, ⟨src.left, script⟩)
  | .fail err :: script => (.fail err, ⟨src.left, script⟩)
  | .more n :: script =>
    (.some (src.left.take (min k (n + 1))), ⟨src.left.drop (min k (n + 1)), script⟩)

theorem read_retry (h : src.read k = (.retry, src')) :
    src'.left = src.left ∧ src'.script.length < src.script.length ∧
      ∀ r ∈ src'.script, r ∈ src.script := by
  obtain ⟨left, script⟩ := src
  rcases script with _ | ⟨_ | err | n, script⟩ <;> cases h
  exact ⟨rfl, Nat.lt_succ_self _, fun r hr => mem_cons_of_mem _ hr⟩

theorem read_some {l : List B} (h : src.read k = (.some l, src')) :
    l ++ src'.left = src.left ∧ src'.script.length ≤ src.script.length ∧ l.length ≤ k ∧
      (0 < k → l = [] → src.left = []) ∧ ∀ r ∈ src'.script, r ∈ src.script := by
  obtain ⟨left, script⟩ := src
  rcases script with _ | ⟨_ | err | n, script⟩ <;> cases h
  · refine ⟨take_append_drop k left, le_rfl, ?_, fun hk hnil => ?_, fun r hr => hr⟩
    · exact length_take_le k left
    · exact (take_eq_nil_iff.1 hnil).resolve_left (ne_of_gt hk)
  · refine ⟨take_append_drop _ left, Nat.le_succ _, ?_, fun hk hnil => ?_, fun r hr =>
      mem_cons_of_mem _ hr⟩
    · exact le_trans (length_take_le _ left) (min_le_left _ _)
    · refine (take_eq_nil_iff.1 hnil).resolve_left fun hmin => ?_
      rcases Nat.min_eq_zero_iff.1 hmin with h | h <;> omega

theorem read_fail {err : Int} (h : src.read k = (.fail err, src')) : .fail err ∈ src.script := by
  obtain ⟨left, script⟩ := src
  rcases script with _ | ⟨_ | err' | n, script⟩ <;> cases h
  exact mem_cons_self

/-- How `fill` ends. -/
inductive Filled (B : Type)
  | done (buf : List B) (src : Source B)
  /-- The stream ended with only these elements read. -/
  | eof (buf : List B)
  | fail (err : Int)

/-- Read until the buffer has `need` elements; it has place for `cap`. -/
def fill (need cap : Nat) (buf : List B) (src : Source B) : Filled B :=
  if buf.length < need then
    match _h : src.read (cap - buf.length) with
    | (.retry, src') => fill need cap buf src'
    | (.fail err, _) => .fail err
    | (.some [], _) => .eof buf
    | (.some (b :: l), src') => fill need cap (buf ++ b :: l) src'
  else .done buf src
  termination_by src.left.length + src.script.length
  decreasing_by
  · obtain ⟨hleft, hscript, -⟩ := read_retry _h
    rw [hleft]
    omega
  · obtain ⟨hleft, hscript, -⟩ := read_some _h
    have hlength := congrArg List.length hleft
    rw [length_append, length_cons] at hlength
    omega

/-- No read fails. -/
def Source.Sound (src : Source B) : Prop := ∀ err, .fail err ∉ src.script

section
variable (hcap : need ≤ cap) (hbuf : buf.length ≤ cap) (hsrc : src.Sound)
include hcap hbuf hsrc

/-- **Nothing is lost or read twice**: what is in the buffer and what is left is what was in
the buffer and left before; the stream ends only if there is not enough. -/
theorem fill_spec :
    match fill need cap buf src with
    | .done buf' src' => buf' ++ src'.left = buf ++ src.left ∧ need ≤ buf'.length ∧
        buf'.length ≤ cap ∧ src'.Sound
    | .eof buf' => buf' = buf ++ src.left ∧ buf'.length < need
    | .fail _ => False := by
  fun_induction fill need cap buf src with
  | case1 buf src hlt src' hread ih =>
    obtain ⟨hleft, -, hmem⟩ := read_retry hread
    rw [hleft] at ih
    exact ih hbuf fun err herr => hsrc err (hmem _ herr)
  | case2 buf src hlt err src' hread => exact hsrc err (read_fail hread)
  | case3 buf src hlt src' hread =>
    obtain ⟨-, -, -, hend, -⟩ := read_some hread
    have hnil : src.left = [] := hend (by omega) rfl
    rw [hnil, append_nil]
    exact ⟨rfl, hlt⟩
  | case4 buf src hlt b l src' hread ih =>
    obtain ⟨hleft, -, hlen, -, hmem⟩ := read_some hread
    have hsame : (buf ++ b :: l) ++ src'.left = buf ++ src.left := by
      rw [append_assoc, hleft]
    rw [hsame] at ih
    refine ih ?_ fun err herr => hsrc err (hmem _ herr)
    rw [length_append]
    omega
  | case5 buf src hge => exact ⟨rfl, by omega, hbuf, hsrc⟩

/-- With enough in the buffer and left, `fill` ends with enough. -/
theorem fill_done (hneed : need ≤ buf.length + src.left.length) :
    ∃ buf' src', fill need cap buf src = .done buf' src' ∧ buf' ++ src'.left = buf ++ src.left ∧
      need ≤ buf'.length ∧ buf'.length ≤ cap ∧ src'.Sound := by
  have hspec := fill_spec hcap hbuf hsrc
  cases hfill : fill need cap buf src with
  | done buf' src' =>
    rw [hfill] at hspec
    exact ⟨buf', src', rfl, hspec⟩
  | eof buf' =>
    rw [hfill] at hspec
    obtain ⟨rfl, hlt⟩ := hspec
    rw [length_append] at hlt
    omega
  | fail err =>
    rw [hfill] at hspec
    exact hspec.elim

theorem fill_eof (hneed : buf.length + src.left.length < need) :
    fill need cap buf src = .eof (buf ++ src.left) := by
  have hspec := fill_spec hcap hbuf hsrc
  cases hfill : fill need cap buf src with
  | done buf' src' =>
    rw [hfill] at hspec
    have hlength := congrArg List.length hspec.1
    rw [length_append, length_append] at hlength
    omega
  | eof buf' =>
    rw [hfill] at hspec
    rw [hspec.1]
  | fail err =>
    rw [hfill] at hspec
    exact hspec.elim

end

theorem fill_length (h : fill need cap buf src = .done buf' src') :
    buf'.length + src'.left.length = buf.length + src.left.length ∧ need ≤ buf'.length := by
  fun_induction fill need cap buf src with
  | case1 buf src hlt src1 hread ih =>
    rw [(read_retry hread).1] at ih
    exact ih h
  | case2 | case3 => cases h
  | case4 buf src hlt b l src1 hread ih =>
    have hlength := congrArg List.length (read_some hread).1
    have ih := ih h
    rw [length_append] at hlength ih
    omega
  | case5 buf src hge =>
    cases h
    omega

/-! ## Numbers -/

/-- The `k` low bytes of a number. -/
def toBytes : Nat → Nat → List UInt8
  | 0, _ => []
  | k + 1, n => UInt8.ofNat n :: toBytes k (n / 256)

def ofBytes : List UInt8 → Nat
  | [] => 0
  | b :: l => b.toNat + 256 * ofBytes l

theorem ofBytes_lt (l : List UInt8) : ofBytes l < 256 ^ l.length := by
  induction l with
  | nil => exact Nat.one_pos
  | cons b l ih =>
    have hb : b.toNat < 256 := UInt8.toNat_lt b
    rw [ofBytes, length_cons]
    omega

@[simp] theorem length_toBytes (k n : Nat) : (toBytes k n).length = k := by
  induction k generalizing n with
  | zero => rfl
  | succ k ih => rw [toBytes, length_cons, ih]

theorem ofBytes_toBytes {k n : Nat} (h : n < 256 ^ k) : ofBytes (toBytes k n) = n := by
  induction k generalizing n with
  | zero => exact (Nat.lt_one_iff.1 h).symm
  | succ k ih =>
    have hdiv : n / 256 < 256 ^ k := by
      rw [Nat.div_lt_iff_lt_mul (by decide)]
      rwa [Nat.pow_succ] at h
    rw [toBytes, ofBytes, ih hdiv]
    exact Nat.mod_add_div n 256

end ByteStream
