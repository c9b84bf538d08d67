import Mathlib

/-!
# Host names

The search domains come from the untrusted host and are checked before they are used. The scan
looks at the length of a label only where the label ends.
-/

open List

namespace Hostname

def palHostnameMax : Nat := 255

def dot : UInt8 := '.'.toUInt8

def hyphen : UInt8 := '-'.toUInt8

def isAlnum (c : UInt8) : Bool :=
  ('a'.toUInt8 ≤ c && c ≤ 'z'.toUInt8) || ('A'.toUInt8 ≤ c && c ≤ 'Z'.toUInt8) ||
    ('0'.toUInt8 ≤ c && c ≤ '9'.toUInt8)

/-- The loop, from `ptr` to the terminator: the length of the last label. -/
def scan : List UInt8 → Nat → Option Nat
  | [], labelLen => some labelLen
  | c :: ptr, labelLen =>
    if isAlnum c ∨ c = hyphen then scan ptr (labelLen + 1)
    else if c = dot then
      if labelLen = 0 ∨ labelLen > 63 then none else scan ptr 0
    else none

/-- `is_hostname_valid` for the bytes before the terminator; `none` if it reads the byte before
the string. -/
def isHostnameValid (hostname : List UInt8) : Option Bool :=
  if hostname.head? = some hyphen then some false
  else
    match scan hostname 0 with
    | none => some false
    | some labelLen =>
      if hostname.length ≥ palHostnameMax then some false
      else if labelLen = 0 ∨ labelLen > 63 then some false
      else hostname.getLast?.map (· ≠ hyphen)

def LabelLength (n : Nat) : Prop := 1 ≤ n ∧ n ≤ 63

/-- The rules. -/
structure Valid (hostname : List UInt8) : Prop where
  length : hostname.length + 1 ≤ palHostnameMax
  labels : ∀ label ∈ hostname.splitOn dot, LabelLength label.length
  chars : ∀ c ∈ hostname, (isAlnum c ∨ c = hyphen) ∨ c = dot
  first : ∀ c ∈ hostname.head?, c ≠ dot ∧ c ≠ hyphen
  last : ∀ c ∈ hostname.getLast?, c ≠ dot ∧ c ≠ hyphen

/-- **The loop** with the check after it, from inside a label of which `n` characters have been
seen. -/
theorem scan_iff (l : List UInt8) (n : Nat) :
    (∃ m, scan l n = some m ∧ LabelLength m) ↔
      (∀ c ∈ l, (isAlnum c ∨ c = hyphen) ∨ c = dot) ∧
        ∀ k ∈ ((l.splitOn dot).map length).modifyHead (n + ·), LabelLength k := by
  induction l generalizing n with
  | nil => simp [scan]
  | cons c l ih =>
    obtain ⟨label, labels, hsplit⟩ := exists_cons_of_ne_nil (splitOn_ne_nil dot l)
    simp only [hsplit, map_cons, modifyHead_cons, forall_mem_cons] at ih
    rw [scan, splitOn_cons_eq_if_modifyHead, hsplit, forall_mem_cons]
    by_cases hc : isAlnum c ∨ c = hyphen
    · have hdot : (c == dot) = false := by
        rw [beq_eq_false_iff_ne]
        rintro rfl
        revert hc
        decide
      rw [if_pos hc, ih, hdot]
      simp [hc, Nat.add_comm 1, Nat.add_assoc]
    · rw [if_neg hc]
      by_cases hdot : c = dot
      · have hlen : (n = 0 ∨ n > 63) ↔ ¬ LabelLength n := by
          simp only [LabelLength]
          omega
        by_cases hn : LabelLength n <;> simp [hdot, hlen, hn, ih]
      · simp [hc, hdot]

/-- The rules about dots are those about the labels. -/
theorem valid_iff (hostname : List UInt8) :
    Valid hostname ↔ hostname.head? ≠ some hyphen ∧
      (∃ n, scan hostname 0 = some n ∧ LabelLength n) ∧ hostname.length < palHostnameMax ∧
      hostname.getLast? ≠ some hyphen := by
  have hscan := scan_iff hostname 0
  rw [show (0 + ·) = id from funext Nat.zero_add, modifyHead_id, id, forall_mem_map] at hscan
  rw [hscan]
  constructor
  · intro h
    exact ⟨fun hc => (h.first _ hc).2 rfl, ⟨h.chars, h.labels⟩, h.length,
      fun hc => (h.last _ hc).2 rfl⟩
  rintro ⟨hfirst, ⟨hchars, hlabels⟩, hlen, hlast⟩
  have hempty : [] ∉ hostname.splitOn dot := fun hmem => absurd (hlabels _ hmem).1 (by simp)
  refine ⟨hlen, hlabels, hchars, fun c hc => ⟨?_, ?_⟩, fun c hc => ⟨?_, ?_⟩⟩
  · rintro rfl
    obtain ⟨l, rfl⟩ := head?_eq_some_iff.1 hc
    exact hempty (by simp [splitOn_cons_eq_if_modifyHead])
  · rintro rfl
    exact hfirst hc
  · rintro rfl
    obtain ⟨l, rfl⟩ := getLast?_eq_some_iff.1 hc
    exact hempty (by simp [splitOn_append_cons_self])
  · rintro rfl
    exact hlast hc

/-- **The check decides the rules**, and never reads before the string. -/
theorem isHostnameValid_iff (hostname : List UInt8) :
    ∃ valid, isHostnameValid hostname = some valid ∧ (valid = true ↔ Valid hostname) := by
  rw [isHostnameValid, valid_iff]
  by_cases hfirst : hostname.head? = some hyphen
  · exact ⟨false, if_pos hfirst, by simp [hfirst]⟩
  rw [if_neg hfirst]
  cases hscan : scan hostname 0 with
  | none => exact ⟨false, rfl, by simp⟩
  | some n =>
    by_cases hlen : hostname.length ≥ palHostnameMax
    · exact ⟨false, if_pos hlen, nofun, fun h => absurd h.2.2.1 (Nat.not_lt.2 hlen)⟩
    simp only [if_neg hlen]
    by_cases hn : n = 0 ∨ n > 63
    · exact ⟨false, if_pos hn, by simp [LabelLength]; omega⟩
    rw [if_neg hn]
    cases hlast : hostname.getLast? with
    | none =>
      -- the label that ends with an empty string is empty
      rw [getLast?_eq_none_iff.1 hlast] at hscan
      exact absurd (Option.some.inj hscan).symm (not_or.1 hn).1
    | some c =>
      refine ⟨_, rfl, ?_⟩
      have hlabel : LabelLength n := by
        rw [LabelLength]
        omega
      simp [hfirst, hlabel, Nat.not_le.1 hlen]

end Hostname
