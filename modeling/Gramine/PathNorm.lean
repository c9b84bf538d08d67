import Gramine.Separated

/-!
# Normalising paths

`get_norm_path` of `path_utils.c`: one pass over a path, writing the normal form into a
buffer. A token is appended to the bytes at `buf`, and ".." takes the last one off again,
by a search for the slash before it. A ".." at the front of a relative path cannot be
taken off: it is written and `buf` is moved past it. Whether a slash is due before the
next token is kept in a flag.

A string is the list of its characters, without the terminating null byte.

`normComponents` is what the result is for: the components of the path, without empty
ones and ".", where ".." removes the component before it.
-/

open List

namespace PathNorm

open Separated

/-- The current directory. -/
def dot : List Char := ['.']

/-- The parent directory. -/
def dotDot : List Char := ['.', '.']

/-! ## The function -/

/-- What `get_norm_path` works on. `done` are the bytes before `buf` that cannot be
discarded, which `ret_size` counts, `size` is the number of bytes the buffer has from
`buf` on, and `buf` the bytes up to `offset`. -/
structure Norm where
  size : Nat
  retSize : Nat
  done : List Char
  buf : List Char
  needSlash : Bool
  deriving DecidableEq, Repr

/-- The slash before a token, if it is needed. -/
def slashIf (needSlash : Bool) : List Char := if needSlash then ['/'] else []

/-- The search of `find_prev_slash_offset`: back from `off` to a slash, or to 0. -/
def prevSlash (path : List Char) : Nat → Nat
  | 0 => 0
  | off + 1 => if path[off + 1]? = some '/' then off + 1 else prevSlash path off

/-- `find_prev_slash_offset`: the new offset, and whether there is a slash. -/
def findPrevSlashOffset (path : List Char) (offset : Nat) : Nat × Bool :=
  if offset = 0 then (offset, false)
  else
    let off := offset - 1
    -- skip the trailing slash if there is one
    let off := if off ≠ 0 ∧ path[off]? = some '/' then off - 1 else off
    let off := prevSlash path off
    (off, path[off]? = some '/')

/-- What the loop does with one token. -/
def handleToken (isAbsolutePath : Bool) (s : Norm) (token : List Char) : Option Norm :=
  if token = dotDot then
    if s.buf ≠ [] then
      -- eat up the previously written token
      let (offset, needSlash) := findPrevSlashOffset s.buf s.buf.length
      some { s with buf := s.buf.take offset, needSlash := needSlash }
    else if isAbsolutePath = false then
      -- append an undiscardable ".."
      if s.size < s.needSlash.toNat + 2 then none
      else some ⟨s.size - (s.needSlash.toNat + 2), s.retSize + (s.needSlash.toNat + 2),
        s.done ++ slashIf s.needSlash ++ dotDot, s.buf, true⟩
    else some s
  else if token = [] ∨ token = dot then some s
  else if s.size - s.buf.length < s.needSlash.toNat + token.length then none
  else some { s with buf := s.buf ++ slashIf s.needSlash ++ token, needSlash := true }

/-- The loop; `token` are the characters that `find_next_slash` has passed. -/
def normLoop (isAbsolutePath : Bool) (s : Norm) (token : List Char) : List Char → Option Norm
  | [] => handleToken isAbsolutePath s token
  | c :: path =>
    if c = '/' then do
      let s ← handleToken isAbsolutePath s token
      normLoop isAbsolutePath s [] path
    else normLoop isAbsolutePath s (token ++ [c]) path

/-- The path begins with a slash. -/
def isAbsolute : List Char → Bool
  | '/' :: _ => true
  | _ => false

/-- The path after the leading slash of an absolute one. -/
def relativePart : List Char → List Char
  | '/' :: path => path
  | path => path

/-- `get_norm_path` with a buffer of `size` bytes, up to the terminating null byte. -/
def writeNormPath (path : List Char) (size : Nat) : Option Norm :=
  if size = 0 then none
  -- one byte is reserved for the terminating null byte
  else
    let size := size - 1
    if isAbsolute path = true then
      if size < 1 then none
      else normLoop true ⟨size - 1, 1, ['/'], [], false⟩ [] (relativePart path)
    else normLoop false ⟨size, 0, [], [], false⟩ [] (relativePart path)

/-- `get_norm_path`: the string written to the buffer. -/
def getNormPath (path : List Char) (size : Nat) : Option (List Char) :=
  (writeNormPath path size).map fun s => s.done ++ s.buf

/-- `*inout_size` after `get_norm_path`. -/
def inoutSize (path : List Char) (size : Nat) : Option Nat :=
  (writeNormPath path size).map fun s => s.retSize + s.buf.length + 1

/-! ## What it is for -/

/-- What a part of the path between two slashes does to the components before it. -/
def addComponent (absolute : Bool) (cs : List (List Char)) (token : List Char) : List (List Char) :=
  if token = dotDot then
    if cs.getLast?.any (fun c => c ≠ dotDot) then cs.dropLast
    else if absolute then cs else cs ++ [dotDot]
  else if token = [] ∨ token = dot then cs
  else cs ++ [token]

/-- The components of the normal form of a path. -/
def normComponents (path : List Char) : List (List Char) :=
  ((relativePart path).splitOn '/').foldl (addComponent (isAbsolute path)) []

/-- The path with the given components. -/
def render (absolute : Bool) (cs : List (List Char)) : List Char :=
  slashIf absolute ++ join '/' cs

/-! ## The search for the previous slash -/

theorem prevSlash_of_slash {pre t : List Char} (h : '/' ∉ t) {k : Nat} (hk : k ≤ t.length) :
    prevSlash (pre ++ '/' :: t) (pre.length + k) = pre.length := by
  induction k with
  | zero =>
    cases hpre : pre.length with
    | zero => rfl
    | succ n =>
      rw [prevSlash, ← hpre, if_pos (by simp)]
  | succ k ih =>
    have hget : (pre ++ '/' :: t)[pre.length + k + 1]? = t[k]? := by
      rw [getElem?_append_right (by omega),
        show pre.length + k + 1 - pre.length = k + 1 by omega, getElem?_cons_succ]
    have hne : (pre ++ '/' :: t)[pre.length + k + 1]? ≠ some '/' := by
      rw [hget]
      exact fun hmem => h (mem_of_getElem? hmem)
    rw [← Nat.add_assoc, prevSlash, if_neg hne]
    exact ih (by omega)

variable {path : List Char}

theorem prevSlash_of_no_slash (h : '/' ∉ path) (k : Nat) : prevSlash path k = 0 := by
  induction k with
  | zero => rfl
  | succ k ih =>
    rw [prevSlash, if_neg fun hmem => h (mem_of_getElem? hmem)]
    exact ih

theorem findPrevSlashOffset_of_slash {pre t : List Char} (ht : t ≠ []) (h : '/' ∉ t) :
    findPrevSlashOffset (pre ++ '/' :: t) (pre ++ '/' :: t).length = (pre.length, true) := by
  have hlen : (pre ++ '/' :: t).length = pre.length + t.length + 1 := by simp; omega
  have hpos := length_pos_iff.2 ht
  have hlast : (pre ++ '/' :: t)[pre.length + t.length]? ≠ some '/' := by
    rw [getElem?_append_right (by omega),
      show pre.length + t.length - pre.length = t.length - 1 + 1 by omega]
    exact fun hmem => h (mem_of_getElem? hmem)
  have hskip : ¬ (pre.length + t.length ≠ 0 ∧
      (pre ++ '/' :: t)[pre.length + t.length]? = some '/') := fun hl => hlast hl.2
  rw [findPrevSlashOffset, hlen]
  simp only [Nat.add_sub_cancel, if_neg hskip, prevSlash_of_slash h (Nat.le_refl t.length)]
  simp

theorem findPrevSlashOffset_of_no_slash {t : List Char} (ht : t ≠ []) (h : '/' ∉ t) :
    findPrevSlashOffset t t.length = (0, false) := by
  have hno : ∀ k : Nat, t[k]? ≠ some '/' := fun k hmem => h (mem_of_getElem? hmem)
  have hpos := length_pos_iff.2 ht
  rw [findPrevSlashOffset]
  simp [hno, prevSlash_of_no_slash h]

/-! ## Components and buffer -/

theorem slashIf_length (b : Bool) : (slashIf b).length = b.toNat := by
  cases b <;> rfl

/-- A component that is not "..". -/
structure Ordinary (t : List Char) : Prop where
  ne_nil : t ≠ []
  ne_dot : t ≠ dot
  ne_dotDot : t ≠ dotDot
  no_slash : '/' ∉ t

/-- The buffer shows `ups` times ".." and then the components `ts`. -/
structure Shows (absolute : Bool) (ups : Nat) (ts : List (List Char)) (s : Norm) : Prop where
  root : absolute = true → ups = 0
  ordinary : ∀ t ∈ ts, Ordinary t
  done : s.done = slashIf absolute ++ join '/' (List.replicate ups dotDot)
  retSize : s.retSize = s.done.length
  buf : s.buf = slashIf (decide (ups ≠ 0 ∧ ts ≠ [])) ++ join '/' ts
  needSlash : s.needSlash = decide (ups ≠ 0 ∨ ts ≠ [])

/-- The components that are shown. -/
def components (ups : Nat) (ts : List (List Char)) : List (List Char) :=
  List.replicate ups dotDot ++ ts

section
variable {absolute : Bool} {ups : Nat} {ts : List (List Char)} {s s' : Norm}
  {token path : List Char}

variable (h : Shows absolute ups ts s)

include h

theorem Shows.join_ne_nil (hts : ts ≠ []) : join '/' ts ≠ [] :=
  Separated.join_ne_nil hts fun t ht => (h.ordinary t ht).ne_nil

theorem Shows.buf_eq_nil : s.buf = [] ↔ ts = [] := by
  rw [h.buf]
  constructor
  · intro hnil
    by_contra hts
    exact h.join_ne_nil hts (append_eq_nil_iff.1 hnil).2
  · rintro rfl
    simp [slashIf]

omit h in
theorem Shows.pop {t : List Char} (h : Shows absolute ups (ts ++ [t]) s) : Shows absolute ups ts
      { s with
        buf := s.buf.take (findPrevSlashOffset s.buf s.buf.length).1
        needSlash := (findPrevSlashOffset s.buf s.buf.length).2 } := by
  have ht := h.ordinary t (by simp)
  have hbuf := h.buf
  -- the bytes before the token's slash, if it has one
  by_cases hts : ts = []
  · subst hts
    by_cases hups : ups = 0
    · have heq : s.buf = t := by simpa [hups, slashIf] using hbuf
      rw [heq, findPrevSlashOffset_of_no_slash ht.ne_nil ht.no_slash]
      exact ⟨h.root, by simp, h.done, h.retSize, by simp [slashIf], by simp [hups]⟩
    · have heq : s.buf = [] ++ '/' :: t := by simpa [hups, slashIf] using hbuf
      rw [heq, findPrevSlashOffset_of_slash ht.ne_nil ht.no_slash]
      exact ⟨h.root, by simp, h.done, h.retSize, by simp [slashIf], by simp [hups]⟩
  · have heq : s.buf = (slashIf (decide (ups ≠ 0 ∧ ts ≠ [])) ++ join '/' ts) ++
        '/' :: t := by
      rw [hbuf, join_append hts (by simp)]
      simp [hts]
    rw [heq, findPrevSlashOffset_of_slash ht.ne_nil ht.no_slash]
    refine ⟨h.root, fun t' ht' => h.ordinary t' (by simp [ht']), h.done, h.retSize, ?_,
      by simp [hts]⟩
    exact take_left

omit h in
theorem Shows.up (h : Shows false ups [] s) (size : Nat) :
    Shows false (ups + 1) [] ⟨size, s.retSize + (s.needSlash.toNat + 2),
      s.done ++ slashIf s.needSlash ++ dotDot, s.buf, true⟩ := by
  refine ⟨nofun, by simp, ?_, ?_, by rw [h.buf_eq_nil.2 rfl]; simp [slashIf], by simp⟩
  case refine_2 =>
    simp only [h.retSize, length_append, slashIf_length, dotDot, length_cons, length_nil]
    omega
  rw [h.done, h.needSlash, replicate_succ']
  by_cases hups : ups = 0
  · simp [hups, slashIf]
  · rw [join_append (by simpa using hups) (by simp)]
    simp [hups, slashIf]

theorem Shows.push (ht : Ordinary token) : Shows absolute ups (ts ++ [token])
      { s with buf := s.buf ++ slashIf s.needSlash ++ token, needSlash := true } := by
  refine ⟨h.root, ?_, h.done, h.retSize, ?_, by simp⟩
  · intro t ht'
    rcases mem_append.1 ht' with ht' | ht'
    · exact h.ordinary t ht'
    · rwa [mem_singleton.1 ht']
  · rw [h.buf, h.needSlash]
    by_cases hts : ts = []
    · by_cases hups : ups = 0 <;> simp [hts, slashIf]
    · rw [join_append hts (by simp)]
      by_cases hups : ups = 0 <;> simp [hts, slashIf]

/-- **One token** changes the buffer as it changes the components. -/
theorem Shows.handle (htoken : '/' ∉ token) (he : handleToken absolute s token = some s') :
    ∃ ups' ts', Shows absolute ups' ts' s' ∧
      components ups' ts' = addComponent absolute (components ups ts) token := by
  unfold handleToken at he
  unfold addComponent
  split at he
  · rename_i htok
    rw [if_pos htok]
    split at he
    · rename_i hbuf
      cases he
      obtain ⟨ts, t, rfl⟩ : ∃ ts' t, ts = ts' ++ [t] :=
        ⟨_, _, (dropLast_append_getLast (mt h.buf_eq_nil.2 hbuf)).symm⟩
      have ht := h.ordinary t (by simp)
      refine ⟨ups, ts, h.pop, ?_⟩
      rw [components, components, ← append_assoc, if_pos (by simp [ht.ne_dotDot]), dropLast_concat]
    · rename_i hbuf
      obtain rfl : ts = [] := h.buf_eq_nil.1 (not_not.1 hbuf)
      have hlast : ¬ ((components ups []).getLast?.any fun c => c ≠ dotDot) = true := by
        by_cases hups : ups = 0 <;> simp [components, getLast?_replicate, hups]
      rw [if_neg hlast]
      split at he
      · rename_i habs
        subst habs
        split at he
        · cases he
        · cases he
          refine ⟨ups + 1, [], h.up _, ?_⟩
          simp [components, replicate_succ']
      · rename_i habs
        cases he
        refine ⟨ups, [], h, ?_⟩
        rw [if_pos (by simpa using habs)]
  · rename_i htok
    rw [if_neg htok]
    split at he
    · rename_i hskip
      cases he
      exact ⟨ups, ts, h, by rw [if_pos hskip]⟩
    rename_i hskip
    rw [if_neg hskip]
    obtain ⟨hnil, hdot⟩ := not_or.1 hskip
    split at he
    · cases he
    · cases he
      refine ⟨ups, ts ++ [token], h.push ⟨hnil, hdot, htok, htoken⟩, ?_⟩
      rw [components, components, append_assoc]

/-- **The loop.** -/
theorem Shows.loop (htoken : '/' ∉ token) (he : normLoop absolute s token path = some s') :
    ∃ ups' ts', Shows absolute ups' ts' s' ∧ components ups' ts' =
      ((token ++ path).splitOn '/').foldl (addComponent absolute) (components ups ts) := by
  induction path generalizing s ups ts token with
  | nil =>
    rw [append_nil, splitOn_eq_singleton htoken]
    exact h.handle htoken he
  | cons c path ih =>
    rw [normLoop] at he
    split at he
    · rename_i hc
      subst hc
      obtain ⟨s1, hs1, he⟩ := Option.bind_eq_some_iff.1 he
      obtain ⟨ups1, ts1, h1, hcs1⟩ := h.handle htoken hs1
      obtain ⟨ups', ts', h', hcs'⟩ := ih h1 (by simp) he
      refine ⟨ups', ts', h', ?_⟩
      rw [hcs', splitOn_append_cons_self_of_not_mem htoken, hcs1]
      rfl
    · rename_i hc
      have htoken' : '/' ∉ token ++ [c] := by
        simp only [mem_append, mem_singleton, not_or]
        exact ⟨htoken, fun h => hc h.symm⟩
      rw [show token ++ c :: path = (token ++ [c]) ++ path by simp]
      exact ih h htoken' he

theorem Shows.render : s.done ++ s.buf = render absolute (components ups ts) := by
  rw [h.done, h.buf, PathNorm.render, components]
  by_cases hups : ups = 0
  · simp [hups, slashIf]
  by_cases hts : ts = []
  · simp [hts, slashIf]
  · rw [join_append (by simpa using hups) hts]
    simp [hups, hts, slashIf]

omit h

theorem shows_initial (absolute : Bool) (size : Nat) :
    Shows absolute 0 [] ⟨size, absolute.toNat, slashIf absolute, [], false⟩ :=
  ⟨fun _ => rfl, by simp, by simp, (slashIf_length _).symm, by simp [slashIf], by simp⟩

end

/-- What the loop begins with. -/
def start (path : List Char) (size : Nat) : Norm :=
  ⟨size - 1 - (isAbsolute path).toNat, (isAbsolute path).toNat, slashIf (isAbsolute path), [],
    false⟩

theorem writeNormPath_eq_some_iff {s : Norm} {size : Nat} :
    writeNormPath path size = some s ↔ (isAbsolute path).toNat < size ∧
      normLoop (isAbsolute path) (start path size) [] (relativePart path) = some s := by
  rw [writeNormPath, start]
  by_cases hsize : size = 0
  · simp [hsize]
  rw [if_neg hsize]
  cases isAbsolute path with
  | true =>
    by_cases hroom : size - 1 < 1
    · simp [hroom]
      omega
    · simp [hroom, slashIf, show 1 < size by omega]
  | false => simp [slashIf, Nat.pos_of_ne_zero hsize]

theorem getNormPath_eq_some_iff {out : List Char} {size : Nat} :
    getNormPath path size = some out ↔ (isAbsolute path).toNat < size ∧
      ∃ s, normLoop (isAbsolute path) (start path size) [] (relativePart path) = some s ∧
        s.done ++ s.buf = out := by
  simp only [getNormPath, Option.map_eq_some_iff, writeNormPath_eq_some_iff, and_assoc,
    exists_and_left]

/-- What `get_norm_path` leaves in the buffer shows the components of the normal form. -/
theorem shows_of_writeNormPath {s : Norm} {size : Nat} (h : writeNormPath path size = some s) :
    ∃ ups ts, Shows (isAbsolute path) ups ts s ∧ components ups ts = normComponents path := by
  obtain ⟨-, hrun⟩ := writeNormPath_eq_some_iff.1 h
  exact (shows_initial (isAbsolute path) _).loop (by simp) hrun

/-- **`get_norm_path` gives the path with the components of the normal form.** -/
theorem getNormPath_eq_render {out : List Char} {size : Nat}
    (h : getNormPath path size = some out) :
    ∃ ups ts, (isAbsolute path = true → ups = 0) ∧ (∀ t ∈ ts, Ordinary t) ∧
      components ups ts = normComponents path ∧
      out = render (isAbsolute path) (normComponents path) := by
  obtain ⟨s, hs, rfl⟩ := Option.map_eq_some_iff.1 h
  obtain ⟨ups, ts, hshows, hcs⟩ := shows_of_writeNormPath hs
  exact ⟨ups, ts, hshows.root, hshows.ordinary, hcs, hcs ▸ hshows.render⟩

/-- **`*inout_size` is the length of the string and one byte more.** -/
theorem inoutSize_eq {out : List Char} {size : Nat} (h : getNormPath path size = some out) :
    inoutSize path size = some (out.length + 1) := by
  obtain ⟨s, hs, rfl⟩ := Option.map_eq_some_iff.1 h
  obtain ⟨ups, ts, hshows, -⟩ := shows_of_writeNormPath hs
  rw [inoutSize, hs, Option.map_some, length_append, hshows.retSize]

/-! ## The size of the buffer -/

/-- A token for which there is room is handled, and takes no more than its own room and
one slash. -/
theorem handleToken_fits (absolute : Bool) (s : Norm) (token : List Char)
    (h : s.buf.length + s.needSlash.toNat + token.length ≤ s.size) :
    ∃ s', handleToken absolute s token = some s' ∧ s'.buf.length + s'.needSlash.toNat + s.size ≤
      s'.size + s.buf.length + s.needSlash.toNat + token.length + 1 := by
  unfold handleToken
  split
  · rename_i htok
    have hlen : token.length = 2 := by rw [htok]; rfl
    split
    · generalize findPrevSlashOffset s.buf s.buf.length = prev
      obtain ⟨-, needSlash⟩ := prev
      refine ⟨_, rfl, ?_⟩
      have := Bool.toNat_le needSlash
      simp only [length_take]
      omega
    split
    · rw [if_neg (by omega)]
      refine ⟨_, rfl, ?_⟩
      simp only [Bool.toNat_true]
      omega
    · exact ⟨s, rfl, by omega⟩
  split
  · exact ⟨s, rfl, by omega⟩
  rw [if_neg (by omega)]
  refine ⟨_, rfl, ?_⟩
  simp only [length_append, slashIf_length, Bool.toNat_true]
  omega

theorem normLoop_fits (absolute : Bool) (s : Norm) (token path : List Char)
    (h : s.buf.length + s.needSlash.toNat + token.length + path.length ≤ s.size) :
    ∃ s', normLoop absolute s token path = some s' := by
  induction path generalizing s token with
  | nil =>
    obtain ⟨s', hs', -⟩ := handleToken_fits absolute s token (by simpa using h)
    exact ⟨s', hs'⟩
  | cons c path ih =>
    rw [length_cons] at h
    rw [normLoop]
    split
    · obtain ⟨s1, hs1, _⟩ := handleToken_fits absolute s token (by omega)
      obtain ⟨s', hs'⟩ := ih s1 [] (by simp only [length_nil]; omega)
      exact ⟨s', Option.bind_eq_some_iff.2 ⟨s1, hs1, hs'⟩⟩
    · exact ih s (token ++ [c]) (by simp only [length_append, length_singleton]; omega)

/-- **A buffer as large as the path is enough.** -/
theorem getNormPath_isSome {size : Nat} (h : path.length < size) :
    ∃ out, getNormPath path size = some out := by
  have hlen : (isAbsolute path).toNat + (relativePart path).length = path.length := by
    unfold isAbsolute relativePart
    split
    · exact Nat.add_comm _ _
    · simp
  obtain ⟨s, hs⟩ := normLoop_fits (isAbsolute path) (start path size) [] (relativePart path)
    (by simp [start]; omega)
  exact ⟨_, getNormPath_eq_some_iff.2 ⟨by omega, s, hs, rfl⟩⟩

/-! ## Inside the buffer -/

section
variable {absolute : Bool} {s s' : Norm} {token path : List Char}

theorem handleToken_inside (h : handleToken absolute s token = some s')
    (hs : s.buf.length ≤ s.size) :
    s'.done.length + s'.size = s.done.length + s.size ∧ s'.buf.length ≤ s'.size := by
  unfold handleToken at h
  split_ifs at h with htok hbuf habs hroom hskip hroom
  · cases h
    exact ⟨rfl, Nat.le_trans (length_take_le' _ _) hs⟩
  · cases h
    simp only [not_not.1 hbuf, length_append, slashIf_length, dotDot, length_cons, length_nil]
    omega
  · cases h
    exact ⟨rfl, hs⟩
  · cases h
    exact ⟨rfl, hs⟩
  cases h
  refine ⟨rfl, ?_⟩
  simp only [length_append, slashIf_length]
  omega

theorem normLoop_inside (h : normLoop absolute s token path = some s')
    (hs : s.buf.length ≤ s.size) :
    s'.done.length + s'.size = s.done.length + s.size ∧ s'.buf.length ≤ s'.size := by
  induction path generalizing s token with
  | nil => exact handleToken_inside h hs
  | cons c path ih =>
    rw [normLoop] at h
    split at h
    · obtain ⟨s1, h1, h⟩ := Option.bind_eq_some_iff.1 h
      obtain ⟨hsum, hle⟩ := handleToken_inside h1 hs
      obtain ⟨hsum', hle'⟩ := ih h hle
      exact ⟨hsum'.trans hsum, hle'⟩
    · exact ih h hs

end

/-! ## A normal form is its own -/

variable {absolute : Bool}

theorem addComponent_components {ups : Nat} {ts : List (List Char)}
    (hups : absolute = true → ups = 0) (hts : ∀ t ∈ ts, Ordinary t) :
    (components ups ts).foldl (addComponent absolute) [] = components ups ts := by
  rw [components, foldl_append]
  have hdots : (replicate ups dotDot).foldl (addComponent absolute) [] = replicate ups dotDot := by
    induction ups with
    | zero => rfl
    | succ n ih =>
      obtain rfl : absolute = false := by
        by_contra habs
        cases hups (by simpa using habs)
      rw [replicate_succ', foldl_append, ih (by simp)]
      cases n <;> simp [addComponent, getLast?_replicate]
  rw [hdots]
  generalize replicate ups dotDot = cs
  induction ts generalizing cs with
  | nil => simp
  | cons t ts ih =>
    have ht := hts t mem_cons_self
    rw [foldl_cons, show addComponent absolute cs t = cs ++ [t] by
      simp [addComponent, ht.ne_nil, ht.ne_dot, ht.ne_dotDot]]
    rw [ih (fun t ht => hts t (mem_cons_of_mem _ ht)), append_assoc, singleton_append]

theorem Ordinary.of_components (ups : Nat) {ts : List (List Char)} (hts : ∀ t ∈ ts, Ordinary t) :
    ∀ c ∈ components ups ts, c ≠ [] ∧ '/' ∉ c := by
  intro c hc
  rcases mem_append.1 hc with hc | hc
  · rw [(mem_replicate.1 hc).2]
    exact ⟨by decide, by decide⟩
  · exact ⟨(hts c hc).ne_nil, (hts c hc).no_slash⟩

theorem isAbsolute_iff : isAbsolute path = true ↔ path.head? = some '/' := by
  unfold isAbsolute
  split
  · simp
  rename_i hne
  cases path with
  | nil => simp
  | cons c path =>
    have : c ≠ '/' := fun hc => hne path (by rw [hc])
    simpa using this

theorem isAbsolute_render {cs : List (List Char)} (h : ∀ c ∈ cs, c ≠ [] ∧ '/' ∉ c) :
    isAbsolute (render absolute cs) = absolute := by
  cases absolute with
  | true => rfl
  | false =>
    have hhead := head?_join_ne h
    have hno : ¬ isAbsolute (render false cs) = true := fun habs => hhead (isAbsolute_iff.1 habs)
    simpa using hno

theorem normComponents_render {cs : List (List Char)} (hcs : ∀ c ∈ cs, c ≠ [] ∧ '/' ∉ c) :
    normComponents (render absolute cs) = cs.foldl (addComponent absolute) [] := by
  have hrel : relativePart (render absolute cs) = join '/' cs := by
    cases absolute with
    | true => rfl
    | false =>
      have hhead := head?_join_ne hcs
      unfold relativePart
      split
      · rename_i heq
        simp [show join '/' cs = _ from heq] at hhead
      · rfl
  rw [normComponents, isAbsolute_render hcs, hrel]
  by_cases hnil : cs = []
  · subst hnil
    simp [addComponent, dotDot]
  · rw [splitOn_join hnil fun c hc => (hcs c hc).2]

/-- **Path normalisation**, for every path and every size of the buffer. The result is the normal
form; it is not longer than the path, fits into the buffer with the null byte, is its own normal
form, and `*inout_size` is its length with the null byte. A buffer with room for the path is enough.
Whatever part of the path has been read, what was written lies in the buffer. -/
theorem getNormPath_correct (path : List Char) (size : Nat) :
    (∀ out, getNormPath path size = some out →
      inoutSize path size = some (out.length + 1) ∧
      out = render (isAbsolute path) (normComponents path) ∧ out.length ≤ path.length ∧
      out.length < size ∧ ∀ size', out.length < size' → getNormPath out size' = some out) ∧
    (path.length < size → ∃ out, getNormPath path size = some out) ∧
    ∀ part s, part <+: relativePart path → (isAbsolute path).toNat < size →
      normLoop (isAbsolute path) (start path size) [] part = some s →
      s.done.length + s.buf.length < size := by
  have hinside : ∀ {size : Nat} {part : List Char} {s : Norm}, (isAbsolute path).toNat < size →
      normLoop (isAbsolute path) (start path size) [] part = some s →
      s.done.length + s.buf.length < size := by
    intro size part s hroom hs
    obtain ⟨hsum, hle⟩ := normLoop_inside hs (by simp [start])
    simp only [start, slashIf_length] at hsum
    omega
  have hlt : ∀ {size : Nat} {out}, getNormPath path size = some out → out.length < size := by
    intro size out h
    obtain ⟨hroom, s, hs, rfl⟩ := getNormPath_eq_some_iff.1 h
    rw [length_append]
    exact hinside hroom hs
  refine ⟨fun out h => ?_, getNormPath_isSome, fun part s _ => hinside⟩
  obtain ⟨ups, ts, hups, hts, hcs, hout⟩ := getNormPath_eq_render h
  refine ⟨inoutSize_eq h, hout, ?_, hlt h, fun size' hsize' => ?_⟩
  · -- it is what a buffer with room for the path gets
    obtain ⟨out', h'⟩ := getNormPath_isSome (Nat.lt_succ_self path.length)
    obtain ⟨-, -, -, -, -, hout'⟩ := getNormPath_eq_render h'
    rw [hout, ← hout']
    exact Nat.le_of_lt_succ (hlt h')
  · obtain ⟨out', h'⟩ := getNormPath_isSome hsize'
    obtain ⟨-, -, -, -, -, hout'⟩ := getNormPath_eq_render h'
    have hsame := Ordinary.of_components ups hts
    rw [hcs] at hsame
    rw [h', hout', hout, isAbsolute_render hsame, normComponents_render hsame, ← hcs,
      addComponent_components hups hts]

example : getNormPath "/a/./b//../c".toList 20 = some "/a/c".toList := by decide

example : getNormPath "a/../../b/../..".toList 20 = some "../..".toList := by decide

/-- **Normalised paths can be compared as strings**: two are equal exactly if the paths have the
same components and both or neither are absolute; and the normal form of an absolute path is written
with components other than `.`, `..` and the empty one, that of a relative one has `..` in front of
them only. -/
theorem norm_paths_canonical {p q out out' : List Char} {n m : Nat}
    (h : getNormPath p n = some out) (h' : getNormPath q m = some out') :
    (out = out' ↔ isAbsolute p = isAbsolute q ∧ normComponents p = normComponents q) ∧
    ∃ ups ts, (isAbsolute p = true → ups = 0) ∧ (∀ t ∈ ts, Ordinary t) ∧
      out = render (isAbsolute p) (replicate ups dotDot ++ ts) := by
  have hback {p out : List Char} {n : Nat} (h : getNormPath p n = some out) :
      isAbsolute out = isAbsolute p ∧ normComponents out = normComponents p := by
    obtain ⟨ups, ts, hups, hts, hcs, rfl⟩ := getNormPath_eq_render h
    have hsame := Ordinary.of_components ups hts
    rw [← hcs]
    exact ⟨isAbsolute_render hsame,
      (normComponents_render hsame).trans (addComponent_components hups hts)⟩
  obtain ⟨ups, ts, hups, hts, hcs, hout⟩ := getNormPath_eq_render h
  obtain ⟨-, -, -, -, -, hout'⟩ := getNormPath_eq_render h'
  refine ⟨⟨?_, ?_⟩, ups, ts, hups, hts, by rw [hout, ← hcs, components]⟩
  · rintro rfl
    exact ⟨(hback h).1.symm.trans (hback h').1, (hback h).2.symm.trans (hback h').2⟩
  · rintro ⟨habs, hc⟩
    rw [hout, hout', habs, hc]

theorem norm_paths_canonical_slashes :
    normComponents "/a//b/".toList = normComponents "/c/../a/b".toList :=
  ((norm_paths_canonical (show getNormPath "/a//b/".toList 20 = some "/a/b".toList by decide)
    (show getNormPath "/c/../a/b".toList 20 = some "/a/b".toList by decide)).1.1 rfl).2

end PathNorm
