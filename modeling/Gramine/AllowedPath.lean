import Gramine.PathNorm

/-!
# Files allowed by the manifest

`normalize_and_register_file`, `path_is_equal_or_subpath` and
`get_trusted_or_allowed_file` of `enclave_framework.c`: the manifest's entries, and which
of them admits a path. A trusted file is found by its path, an allowed one also by a path
below it.

The check for "below" compares strings and looks at one character before the end of the
entry's path and at one after it. For an entry with at least one character this is the
comparison of the components (`pathComponents`). The normal form of "." is empty, and
the character before its end is the colon of the URI.
-/

open List

namespace AllowedPath

open Separated
open PathNorm

/-- The prefix of a file. -/
def uriPrefixFile : List Char := ['f', 'i', 'l', 'e', ':']

/-- The prefix of a device. -/
def uriPrefixDev : List Char := ['d', 'e', 'v', ':']

/-- `URI_MAX`. -/
def uriMax : Nat := 4096

/-- The errors of `normalize_and_register_file`. -/
inductive PalError
  | inval
  | nomem
  deriving DecidableEq, Repr

/-- `struct trusted_file`, without the hashes and the size. -/
structure Entry where
  uri : List Char
  allowed : Bool
  deriving DecidableEq, Repr

/-- The length of the URI's prefix; `find_path_in_uri` returns what comes after it. -/
def pathStart (uri : List Char) : Nat := if uriPrefixFile <+: uri then 5 else 4

/-- The path that `find_path_in_uri` finds. -/
def Entry.path (tf : Entry) : List Char := tf.uri.drop (pathStart tf.uri)

/-- `path_is_equal_or_subpath`. -/
def pathIsEqualOrSubpath (tf : Entry) (path : List Char) : Bool :=
  if path.length < tf.path.length ∨ path.take tf.path.length ≠ tf.path then false
  else if tf.path.length = path.length then true
  -- `tf_path[tf_path_len - 1]`, which is the byte before an empty path
  else if tf.uri[pathStart tf.uri + tf.path.length - 1]? = some '/' then true
  else path[tf.path.length]? = some '/'

/-- `get_trusted_or_allowed_file`. -/
def getTrustedOrAllowedFile (entries : List Entry) (path : List Char) : Option Entry :=
  entries.find? fun tf =>
    if tf.allowed then pathIsEqualOrSubpath tf path else tf.path = path

/-- The digits of a hash. -/
def isHexDigit (c : Char) : Bool :=
  ('0' ≤ c && c ≤ '9') || ('a' ≤ c && c ≤ 'f') || ('A' ≤ c && c ≤ 'F')

/-- `register_file`, during initialization; `malloc` says whether the allocation succeeds. -/
def registerFile (malloc : Bool) (uri : List Char) (hashStr : Option (List Char)) :
    Except PalError Entry :=
  if hashStr.any (fun hash => hash.length ≠ 64) then throw .inval
  else if uriMax ≤ uri.length then throw .inval
  else if malloc = false then throw .nomem
  else if hashStr.any (fun hash => ! hash.all isHexDigit) then throw .inval
  else pure ⟨uri, hashStr.isNone⟩

/-- `normalize_and_register_file`; `malloc` says which of the two allocations succeed. -/
def normalizeAndRegisterFile (malloc : Bool × Bool) (uri : List Char)
    (hashStr : Option (List Char)) : Except PalError Entry :=
  if ¬ (uriPrefixFile <+: uri ∨ (hashStr = none ∧ uriPrefixDev <+: uri)) then throw .inval
  else if malloc.1 = false then throw .nomem
  else
    let start := pathStart uri
    match getNormPath (uri.drop start) (uri.length + 1 - start) with
    | none => throw .inval
    | some path => registerFile malloc.2 (uri.take start ++ path) hashStr

/-! ## Components -/

/-- The components of a path. -/
def pathComponents (path : List Char) : List (List Char) :=
  (path.splitOn '/').filter fun c => c ≠ []

/-- A component of a normal form. -/
def Component (c : List Char) : Prop := c ≠ [] ∧ '/' ∉ c

section
variable {absolute : Bool} {cs : List (List Char)}

theorem pathComponents_render (h : ∀ c ∈ cs, Component c) :
    pathComponents (render absolute cs) = cs := by
  have hfilter : cs.filter (fun c => c ≠ []) = cs :=
    filter_eq_self.2 fun c hc => by simpa using (h c hc).1
  have hjoin : pathComponents (join '/' cs) = cs := by
    by_cases hcs : cs = []
    · rw [hcs]
      rfl
    · rw [pathComponents, splitOn_join hcs fun c hc => (h c hc).2, hfilter]
  cases absolute with
  | true =>
    have hsplit := splitOn_append_cons_self [] (join '/' cs) (a := '/')
    rw [nil_append] at hsplit
    rw [render, slashIf, if_pos rfl, singleton_append, pathComponents, hsplit]
    simpa [pathComponents] using hjoin
  | false => simpa [render, slashIf] using hjoin

theorem exists_components {path out : List Char} {size : Nat}
    (h : getNormPath path size = some out) :
    ∃ cs, out = render (isAbsolute path) cs ∧ ∀ c ∈ cs, Component c := by
  obtain ⟨ups, ts, -, hts, hcs, rfl⟩ := getNormPath_eq_render h
  refine ⟨_, rfl, ?_⟩
  rw [← hcs]
  exact Ordinary.of_components ups hts

end

/-! ## The check -/

variable {tf : Entry}

/-- The entry's path begins the path, and what follows is nothing or separated from it. -/
theorem pathIsEqualOrSubpath_iff {path : List Char} :
    pathIsEqualOrSubpath tf path = true ↔ ∃ r, path = tf.path ++ r ∧
      (r = [] ∨ tf.uri[pathStart tf.uri + tf.path.length - 1]? = some '/' ∨
        r.head? = some '/') := by
  unfold pathIsEqualOrSubpath
  by_cases hpre : tf.path <+: path
  · obtain ⟨r, rfl⟩ := hpre
    rw [if_neg (by simp)]
    by_cases hr : r = []
    · subst hr
      simp
    have hlen : tf.path.length ≠ (tf.path ++ r).length := by simpa using hr
    have hget : (tf.path ++ r)[tf.path.length]? = r.head? := by
      rw [getElem?_append_right (Nat.le_refl _), Nat.sub_self, head?_eq_getElem?]
    rw [if_neg hlen, hget]
    split
    · rename_i hslash
      simp [hslash]
    · rename_i hslash
      simp [hslash, hr]
  · have hno : path.length < tf.path.length ∨ path.take tf.path.length ≠ tf.path := by
      by_contra hcon
      refine hpre ⟨path.drop tf.path.length, ?_⟩
      have htake := not_not.1 (not_or.1 hcon).2
      nth_rewrite 1 [← htake]
      exact take_append_drop ..
    rw [if_pos hno]
    simp only [Bool.false_eq_true, false_iff]
    rintro ⟨r, rfl, -⟩
    exact hpre ⟨r, rfl⟩

theorem entry_of_register {malloc : Bool × Bool} {uri : List Char} {hashStr : Option (List Char)}
    (h : normalizeAndRegisterFile malloc uri hashStr = .ok tf) :
    ∃ pre : List Char, tf.uri = pre ++ tf.path ∧ pathStart tf.uri = pre.length ∧
      pre.getLast? = some ':' ∧ ∃ raw size, getNormPath raw size = some tf.path := by
  unfold normalizeAndRegisterFile at h
  split at h
  · cases h
  rename_i hpre
  split at h
  · cases h
  dsimp only at h
  split at h
  · cases h
  rename_i path hnorm
  have huri : tf.uri = uri.take (pathStart uri) ++ path := by
    unfold registerFile at h
    split_ifs at h
    cases h
    rfl
  rcases not_not.1 hpre with ⟨r, rfl⟩ | ⟨-, r, rfl⟩
  · have huri' : tf.uri = uriPrefixFile ++ path := huri
    have hpath : tf.path = path := by
      rw [Entry.path, huri']
      rfl
    rw [hpath]
    exact ⟨uriPrefixFile, huri', by rw [huri']; rfl, rfl, _, _, hnorm⟩
  · have huri' : tf.uri = uriPrefixDev ++ path := huri
    have hpath : tf.path = path := by
      rw [Entry.path, huri']
      rfl
    rw [hpath]
    exact ⟨uriPrefixDev, huri', by rw [huri']; rfl, rfl, _, _, hnorm⟩

theorem charBefore {pre : List Char} (huri : tf.uri = pre ++ tf.path)
    (hstart : pathStart tf.uri = pre.length) (hpre : pre.getLast? = some ':') :
    tf.uri[pathStart tf.uri + tf.path.length - 1]? =
      if tf.path = [] then some ':' else tf.path.getLast? := by
  rw [hstart, huri, ← length_append, ← getLast?_eq_getElem?]
  split
  · rename_i hnil
    rw [hnil, append_nil, hpre]
  rename_i hne
  rw [getLast?_append]
  cases hlast : tf.path.getLast? with
  | none => exact absurd (getLast?_eq_none_iff.1 hlast) hne
  | some c => rfl

section
variable {tf : Entry} {pre : List Char} {a b : Bool} {cs ds : List (List Char)}

section
variable (huri : tf.uri = pre ++ tf.path) (hstart : pathStart tf.uri = pre.length)
  (hpre : pre.getLast? = some ':')
include huri hstart hpre

/-- **The check compares components**, when the entry's path is not empty. -/
theorem subpath_iff_of_ne_nil (hcs : ∀ c ∈ cs, Component c) (hds : ∀ c ∈ ds, Component c)
    (htf : tf.path = render a cs) (hne : tf.path ≠ []) :
    pathIsEqualOrSubpath tf (render b ds) = true ↔ cs <+: ds ∧ a = b := by
  rw [pathIsEqualOrSubpath_iff, charBefore huri hstart hpre, if_neg hne, htf]
  rw [htf] at hne
  by_cases hnil : cs = []
  · -- the root directory, which ends with a slash
    subst hnil
    obtain rfl : a = true := by
      cases a with
      | true => rfl
      | false => exact absurd rfl hne
    constructor
    · rintro ⟨r, hr, -⟩
      refine ⟨ nil_prefix, ?_⟩
      have habs : isAbsolute (render b ds) = true := by rw [hr]; rfl
      rw [← habs, isAbsolute_render hds]
    · rintro ⟨-, rfl⟩
      exact ⟨join '/' ds, rfl, .inr (.inl rfl)⟩
  · have hlast : (render a cs).getLast? ≠ some '/' := by
      have hjoin := getLast?_join_ne hcs
      have hjne : join '/' cs ≠ [] := join_ne_nil hnil fun c hc => (hcs c hc).1
      obtain ⟨y, hy⟩ := Option.ne_none_iff_exists'.1 (mt getLast?_eq_none_iff.1 hjne)
      rw [hy] at hjoin
      rwa [render, getLast?_append, hy]
    -- both paths begin alike, so they are of one kind
    have hkind : ∀ r, render b ds = render a cs ++ r → a = b := by
      intro r hr
      have hhead : (render b ds).head? = (render a cs).head? := by
        rw [hr, head?_append_of_ne_nil _ hne]
      rw [← @isAbsolute_render a cs hcs, ← @isAbsolute_render b ds hds, Bool.eq_iff_iff,
        isAbsolute_iff, isAbsolute_iff, hhead]
    have hcancel : a = b → ∀ r, render b ds = render a cs ++ r ↔
        join '/' ds = join '/' cs ++ r := by
      rintro rfl r
      rw [render, render, append_assoc, append_cancel_left_eq]
    rw [isPrefix_iff hnil hcs hds]
    constructor
    · rintro ⟨r, hr, hsep⟩
      have hab := hkind r hr
      rw [hcancel hab] at hr
      refine ⟨?_, hab⟩
      rcases hsep with rfl | hsep | hsep
      · rw [append_nil] at hr
        exact .inl hr
      · exact absurd hsep hlast
      obtain ⟨r, rfl⟩ : ∃ r', r = '/' :: r' := by
        cases r with
        | nil => cases hsep
        | cons c r =>
          cases hsep
          exact ⟨r, rfl⟩
      exact .inr ⟨r, hr⟩
    · rintro ⟨heq | ⟨r, heq⟩, hab⟩
      · exact ⟨[], (hcancel hab []).2 (by rw [append_nil, heq]), .inl rfl⟩
      · exact ⟨'/' :: r, (hcancel hab _).2 heq, .inr (.inr rfl)⟩

/-- The empty path of an entry is found at the beginning of every path, and separated from
it by its leading slash if it is absolute. -/
theorem subpath_iff_of_nil (hnil : tf.path = []) {path : List Char} :
    pathIsEqualOrSubpath tf path = true ↔ path = [] ∨ isAbsolute path = true := by
  rw [pathIsEqualOrSubpath_iff, charBefore huri hstart hpre, hnil, isAbsolute_iff]
  simp

end

end

/-- **Which paths an allowed entry admits.** Both paths are normalised; the check then
agrees with the comparison of the components exactly if the entry's path is not empty, or
the other one is empty too. -/
theorem allowed_components_iff {malloc : Bool × Bool} {uri : List Char} {tf : Entry}
    (h : normalizeAndRegisterFile malloc uri none = .ok tf) (query : List Char) :
    ∃ path, getNormPath query (query.length + 1) = some path ∧
      ((pathIsEqualOrSubpath tf path = true ↔
          pathComponents tf.path <+: pathComponents path ∧ isAbsolute tf.path = isAbsolute path) ↔
        (tf.path = [] → path = [])) := by
  obtain ⟨path, hpath⟩ := getNormPath_isSome (Nat.lt_succ_self query.length)
  refine ⟨path, hpath, ?_⟩
  obtain ⟨pre, huri, hstart, hpre, raw, size, hraw⟩ := entry_of_register h
  obtain ⟨cs, htf, hcs⟩ := exists_components hraw
  obtain ⟨ds, rfl, hds⟩ := exists_components hpath
  by_cases hnil : tf.path = []
  · rw [subpath_iff_of_nil huri hstart hpre hnil, hnil]
    have hempty : pathComponents [] = [] := rfl
    have hrel : isAbsolute [] = false := rfl
    simp only [hempty, hrel]
    cases habs : isAbsolute (render (isAbsolute query) ds) with
    | true =>
      have hne : render (isAbsolute query) ds ≠ [] := by
        intro hr
        rw [hr] at habs
        cases habs
      simp [hne]
    | false => simp
  · simp only [hnil, false_implies, iff_true]
    rw [subpath_iff_of_ne_nil huri hstart hpre hcs hds htf hnil, htf, pathComponents_render hcs,
      pathComponents_render hds, isAbsolute_render hcs, isAbsolute_render hds]

/-- "/foo" allows "/foo/bar" but not "/foobar". -/
theorem allowed_components_foo : ∃ path, getNormPath "/foo//bar".toList 10 = some path ∧
    ((pathIsEqualOrSubpath ⟨"file:/foo".toList, true⟩ path = true ↔
        pathComponents "/foo".toList <+: pathComponents path ∧
          isAbsolute "/foo".toList = isAbsolute path) ↔
      ("/foo".toList = [] → path = [])) :=
  @allowed_components_iff (true, true) "file:/foo/".toList ⟨"file:/foo".toList, true⟩ (by decide)
    "/foo//bar".toList

/-- **The entry "." allows every absolute path**, and no relative one below it. -/
theorem allowed_dot : normalizeAndRegisterFile (true, true) "file:.".toList none =
      .ok ⟨"file:".toList, true⟩ ∧
    getNormPath "/etc/passwd".toList 12 = some "/etc/passwd".toList ∧
    pathIsEqualOrSubpath ⟨"file:".toList, true⟩ "/etc/passwd".toList = true ∧
    ¬ isAbsolute (Entry.path ⟨"file:".toList, true⟩) = isAbsolute "/etc/passwd".toList ∧
    getNormPath "./data".toList 7 = some "data".toList ∧
    pathIsEqualOrSubpath ⟨"file:".toList, true⟩ "data".toList = false ∧
    pathComponents (Entry.path ⟨"file:".toList, true⟩) <+: pathComponents "data".toList ∧
    isAbsolute (Entry.path ⟨"file:".toList, true⟩) = isAbsolute "data".toList := by
  decide

end AllowedPath
