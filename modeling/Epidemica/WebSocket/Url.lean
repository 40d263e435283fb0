import Epidemica.Transactions.Strings

/-!
# `WebSocket.Url` — which server a URL names

`from_url` tries four `sscanf` formats, from the most to the least specific, and takes the first that matches
to its end. `sscanf` is an interpreter of its format; `parseUrl_eq` says what the four tries come to, read in
one pass. A port that is no number is not an error: the URL then names port 80.
-/

namespace Epidemica

/-! ## `sscanf` -/

/-- The directives of a format. -/
inductive Directive where
  | literal (c : Char)
  /-- A blank in the format: any number of spaces in the input. -/
  | space
  /-- `%[^…]`. -/
  | noneOf (set : List Char)
  /-- `%d`. -/
  | int
  /-- `%s`. -/
  | word
  deriving DecidableEq, Repr

/-- What a conversion stores. -/
inductive Converted where
  | text (s : List Char)
  | number (n : Int32)
  deriving DecidableEq, Repr

/-- The `int` that is stored for a number. One that is no `int` is undefined in the standard; the C library
    keeps the number in the range of a `long` and stores its last 32 bits. -/
def storeInt (n : Int) : Int32 := Int32.ofInt (max (-2 ^ 63) (min n (2 ^ 63 - 1)))

/-- The digits in front of `s`, under a sign, and what follows them. -/
def scanDigits (sign : Int) (s : List Char) : Option (Int32 × List Char) :=
  let digits := s.takeWhile Char.isDigit
  if digits = [] then none else some (storeInt (sign * decimal digits), s.dropWhile Char.isDigit)

/-- `%d`, and what follows the number. -/
def scanInt (s : List Char) : Option (Int32 × List Char) := signed scanDigits s

example : scanInt "4294967376/foo".toList = some (80, "/foo".toList) := by decide

/-- The word in front of `s`, empty if there is none. -/
def scanWord (s : List Char) : List Char := (s.dropWhile isSpace).takeWhile fun c => !isSpace c

/-- The conversions performed before the first directive that does not match. -/
def sscanf : List Directive → List Char → List Converted
  | [], _ => []
  | .literal c :: ds, s =>
    match s with
    | [] => []
    | x :: s => if x = c then sscanf ds s else []
  | .space :: ds, s => sscanf ds (s.dropWhile isSpace)
  | .noneOf set :: ds, s =>
    let found := s.takeWhile fun c => c ∉ set
    if found = [] then [] else .text found :: sscanf ds (s.dropWhile fun c => c ∉ set)
  | .int :: ds, s =>
    match scanInt s with
    | none => []
    | some (n, s) => .number n :: sscanf ds s
  | .word :: ds, s =>
    let found := scanWord s
    if found = [] then []
    else .text found :: sscanf ds ((s.dropWhile isSpace).dropWhile fun c => !isSpace c)

/-- `c_str()`, read as a string. -/
def cString (s : List Char) : List Char := s.takeWhile fun c => c ≠ '\x00'

theorem sscanf_literals (l : List Char) (ds : List Directive) (s : List Char) :
    sscanf (l.map .literal ++ ds) (l ++ s) = sscanf ds s := by
  induction l with
  | nil => rfl
  | cons c l ih =>
    rw [List.map_cons, List.cons_append, List.cons_append, sscanf, if_pos rfl]
    exact ih

theorem sscanf_of_not_literals {l s : List Char} (ds : List Directive) (h : ¬ l <+: s) :
    sscanf (l.map .literal ++ ds) s = [] := by
  induction l generalizing s with
  | nil => exact absurd (List.nil_prefix) h
  | cons c l ih =>
    rw [List.map_cons, List.cons_append]
    cases s with
    | nil => rfl
    | cons x s =>
      rw [sscanf]
      split
      · rename_i hx
        subst hx
        exact ih fun hs => h (List.cons_prefix_cons.mpr ⟨rfl, hs⟩)
      · rfl

/-! ## `from_url` -/

/-- The server and the resource that a URL names. -/
structure Target where
  host : List Char
  port : Int32
  path : List Char
  deriving DecidableEq, Repr

/-- What the formats begin with. -/
def scheme : List Char := ['w', 's', ':', '/', '/']

/-- The four formats, one after the other. -/
def parseUrl (url : List Char) : Option Target :=
  if url.length ≥ 512 then none
  else
    let s := cString url
    let host : Directive := .noneOf [':', '/']
    match sscanf (scheme.map .literal ++ [host, .literal ':', .int, .literal '/', .word]) s with
    | [.text host, .number port, .text path] => some ⟨host, port, path⟩
    | _ =>
      match sscanf (scheme.map .literal ++ [host, .literal '/', .word]) s with
      | [.text host, .text path] => some ⟨host, 80, path⟩
      | _ =>
        match sscanf (scheme.map .literal ++ [host, .literal ':', .int]) s with
        | [.text host, .number port] => some ⟨host, port, []⟩
        | _ =>
          match sscanf (scheme.map .literal ++ [host]) s with
          | [.text host] => some ⟨host, 80, []⟩
          | _ => none

/-- What stands behind the host: a port, a path, both or neither. -/
def Target.behind (host : List Char) : List Char → Target
  | ':' :: s =>
    match scanInt s with
    | some (port, '/' :: path) => ⟨host, port, scanWord path⟩
    | some (port, _) => ⟨host, port, []⟩
    | none => ⟨host, 80, []⟩
  | '/' :: path => ⟨host, 80, scanWord path⟩
  | _ => ⟨host, 80, []⟩

/-- The four tries, in one pass. -/
theorem parseUrl_eq {url : List Char} (hlen : url.length < 512) {s : List Char}
    (hs : cString url = scheme ++ s) :
    parseUrl url =
      let host := s.takeWhile fun c => c ∉ [':', '/']
      if host = [] then none
      else some (Target.behind host (s.dropWhile fun c => c ∉ [':', '/'])) := by
  unfold parseUrl
  rw [if_neg (by omega)]
  simp only [hs, sscanf_literals, sscanf]
  generalize s.takeWhile (fun c => c ∉ [':', '/']) = host
  generalize s.dropWhile (fun c => c ∉ [':', '/']) = rest
  by_cases hhost : host = []
  · simp [hhost]
  · simp only [if_neg hhost]
    rcases rest with _ | ⟨c, rest⟩
    · simp [Target.behind]
    · by_cases hcolon : c = ':'
      · subst hcolon
        -- behind the colon: a port and a path, a port, or neither
        cases hint : scanInt rest with
        | none => simp [Target.behind, hint]
        | some found =>
          obtain ⟨port, tail⟩ := found
          rcases tail with _ | ⟨d, path⟩
          · simp [Target.behind, hint]
          · by_cases hslash : d = '/'
            · subst hslash
              by_cases hpath : scanWord path = [] <;> simp [Target.behind, hint, hpath]
            · simp [Target.behind, hint, hslash]
      · by_cases hslash : c = '/'
        · subst hslash
          by_cases hpath : scanWord rest = [] <;> simp [Target.behind, hpath]
        · simp [Target.behind, hcolon, hslash]

/-- Without the scheme no format matches. -/
theorem parseUrl_of_not_scheme {url : List Char} (h : ¬ scheme <+: cString url) : parseUrl url = none := by
  unfold parseUrl
  split
  · rfl
  · simp only [sscanf_of_not_literals _ h]

/-! ## Numbers -/

/-- A number that is an `int` is stored as it is. -/
theorem storeInt_toInt (v : Int32) : storeInt v.toInt = v := by
  have hlow := v.le_toInt
  have hhigh := v.toInt_lt
  have hlong : max (-2 ^ 63) (min v.toInt (2 ^ 63 - 1)) = v.toInt := by omega
  unfold storeInt
  rw [hlong, Int32.ofInt_toInt]

theorem scanDigits_append {sign : Int} {digits rest : List Char} {v : Int32} (hne : digits ≠ [])
    (hd : ∀ c ∈ digits, c.isDigit) (hr : ∀ c ∈ rest.head?, c.isDigit = false)
    (hv : sign * decimal digits = v.toInt) : scanDigits sign (digits ++ rest) = some (v, rest) := by
  obtain ⟨htake, hdrop⟩ := digits_append hd hr
  unfold scanDigits
  simp only [htake, hdrop, if_neg hne, hv, storeInt_toInt]

/-- A numeral of an `int` is read in full, and nothing behind it. -/
theorem scanInt_numeral {s rest : List Char} {v : Int32} (h : Numeral s v.toInt)
    (hr : ∀ c ∈ rest.head?, c.isDigit = false) : scanInt (s ++ rest) = some (v, rest) :=
  signed_numeral _ h fun _ _ hne hd hv => scanDigits_append hne hd hr hv

/-! ## What a URL must look like -/

namespace Target

/-- A host without separators, and a path of one word. -/
structure WellFormed (t : Target) : Prop where
  host_ne : t.host ≠ []
  host : ∀ c ∈ t.host, c ∉ [':', '/'] ∧ c ≠ '\x00'
  path : ∀ c ∈ t.path, isSpace c = false ∧ c ≠ '\x00'

instance (t : Target) : Decidable t.WellFormed :=
  haveI := List.decidableBAll (fun c => c ∉ [':', '/'] ∧ c ≠ '\x00') t.host
  haveI := List.decidableBAll (fun c => isSpace c = false ∧ c ≠ '\x00') t.path
  decidable_of_iff (t.host ≠ [] ∧ (∀ c ∈ t.host, c ∉ [':', '/'] ∧ c ≠ '\x00') ∧
      ∀ c ∈ t.path, isSpace c = false ∧ c ≠ '\x00')
    ⟨fun h => ⟨h.1, h.2.1, h.2.2⟩, fun h => ⟨h.host_ne, h.host, h.path⟩⟩

/-- The path with its slash. -/
def resource (t : Target) : List Char := if t.path = [] then [] else '/' :: t.path

/-- With a numeral for the port. -/
def written (t : Target) (port : List Char) : List Char := scheme ++ t.host ++ ':' :: port ++ t.resource

/-- Without port. -/
def plain (t : Target) : List Char := scheme ++ t.host ++ t.resource

variable {t : Target}

theorem scanWord_path (h : t.WellFormed) : scanWord t.path = t.path := by
  have hkeep : t.path.dropWhile isSpace = t.path := by
    cases hp : t.path with
    | nil => rfl
    | cons c rest =>
      have hc := (h.path c (hp ▸ List.mem_cons_self)).1
      rw [List.dropWhile_cons_of_neg (by simp [hc])]
  unfold scanWord
  rw [hkeep, List.takeWhile_eq_self_iff]
  intro c hc
  simp [(h.path c hc).1]

/-- The host ends at the first separator. -/
theorem host_split (h : t.WellFormed) {rest : List Char}
    (hrest : ∀ c ∈ rest.head?, c ∈ [':', '/']) :
    (t.host ++ rest).takeWhile (fun c => c ∉ [':', '/']) = t.host ∧
      (t.host ++ rest).dropWhile (fun c => c ∉ [':', '/']) = rest := by
  have hall : ∀ c ∈ t.host, decide (c ∉ [':', '/']) = true := fun c hc => by simpa using (h.host c hc).1
  rw [List.takeWhile_append_of_pos hall, List.dropWhile_append_of_pos hall]
  cases rest with
  | nil => simp
  | cons c rest =>
    have hc : c = ':' ∨ c = '/' := by simpa using hrest c rfl
    rcases hc with rfl | rfl <;> simp

theorem cString_eq {s : List Char} (h : ∀ c ∈ s, c ≠ '\x00') : cString s = s := by
  unfold cString
  rw [List.takeWhile_eq_self_iff]
  intro c hc
  simpa using h c hc

theorem resource_head (h : t.WellFormed) :
    (∀ c ∈ t.resource.head?, c = '/') ∧ ∀ c ∈ t.resource, c ≠ '\x00' := by
  unfold resource
  split
  · simp
  · refine ⟨by simp, ?_⟩
    intro c hc
    rcases List.mem_cons.mp hc with rfl | hc
    · decide
    · exact (h.path c hc).2

end Target

/-! ## The four cases -/

section
variable {url : List Char} {t : Target}

theorem parseUrl_none_iff : parseUrl url = none ↔
    512 ≤ url.length ∨ ¬ ∃ c rest, cString url = scheme ++ c :: rest ∧ c ≠ ':' ∧ c ≠ '/' := by
  by_cases hlen : 512 ≤ url.length
  · simp [parseUrl, hlen]
  · by_cases hscheme : scheme <+: cString url
    · obtain ⟨s, hs⟩ := hscheme
      rw [parseUrl_eq (by omega) hs.symm, ← hs]
      cases s with
      | nil => simp [hlen]
      | cons c rest =>
        by_cases hc : c = ':' ∨ c = '/'
        · rcases hc with rfl | rfl <;> simp [hlen]
        · have hne : c ≠ ':' ∧ c ≠ '/' := not_or.mp hc
          simp [hlen, hne]
    · have hnone : ¬ ∃ c rest, cString url = scheme ++ c :: rest ∧ c ≠ ':' ∧ c ≠ '/' := by
        rintro ⟨c, rest, hs, -⟩
        exact hscheme ⟨c :: rest, hs.symm⟩
      rw [parseUrl_of_not_scheme hscheme]
      exact iff_of_true rfl (Or.inr hnone)

theorem scanInt_sublist {s rest : List Char} {n : Int32} (h : scanInt s = some (n, rest)) :
    rest.Sublist s := by
  obtain ⟨sign, s', hsub, hsigned⟩ := exists_signed scanDigits s
  have hdigits : scanDigits sign s' = some (n, rest) := hsigned.symm.trans h
  unfold scanDigits at hdigits
  simp only at hdigits
  split at hdigits
  · exact absurd hdigits (by simp)
  · rw [← (Prod.mk.inj (Option.some.inj hdigits)).2]
    exact (List.dropWhile_sublist _).trans hsub

theorem scanWord_sublist (s : List Char) : (scanWord s).Sublist s :=
  (List.takeWhile_sublist _).trans (List.dropWhile_sublist _)

theorem scanWord_spaceless (s : List Char) : ∀ c ∈ scanWord s, isSpace c = false := by
  intro c hc
  simpa using List.mem_takeWhile_imp hc

/-- The path is a word of what stands behind the host. -/
theorem Target.behind_spec (host rest : List Char) :
    (Target.behind host rest).host = host ∧ (Target.behind host rest).path.Sublist rest ∧
      ∀ c ∈ (Target.behind host rest).path, isSpace c = false := by
  unfold Target.behind
  split
  · split
    · rename_i s _ port path hint
      have hpath : path.Sublist (':' :: s) :=
        (List.sublist_cons_self '/' path).trans ((scanInt_sublist hint).trans (List.sublist_cons_self _ _))
      exact ⟨rfl, (scanWord_sublist path).trans hpath, scanWord_spaceless path⟩
    · exact ⟨rfl, List.nil_sublist _, by simp⟩
    · exact ⟨rfl, List.nil_sublist _, by simp⟩
  · rename_i path
    exact ⟨rfl, (scanWord_sublist path).trans (List.sublist_cons_self _ _), scanWord_spaceless path⟩
  · exact ⟨rfl, List.nil_sublist _, by simp⟩

/-- A target is made of parts of the URL. -/
theorem parseUrl_parts (h : parseUrl url = some t) :
    url.length < 512 ∧ t.host ≠ [] ∧ (∀ c ∈ t.host, c ∉ [':', '/']) ∧ (∀ c ∈ t.path, isSpace c = false) ∧
      (t.host ++ t.path).Sublist (cString url) := by
  have hsome : ¬ parseUrl url = none := by simp [h]
  rw [parseUrl_none_iff, not_or, not_not] at hsome
  obtain ⟨hlen, c, rest, hs, -⟩ := hsome
  rw [parseUrl_eq (by omega) hs] at h
  simp only at h
  split at h
  · exact absurd h (by simp)
  · rename_i hhost
    generalize c :: rest = s at h hhost hs
    obtain ⟨hname, hpath, hword⟩ := Target.behind_spec (s.takeWhile fun c => c ∉ [':', '/'])
      (s.dropWhile fun c => c ∉ [':', '/'])
    obtain rfl := Option.some.inj h
    refine ⟨by omega, by rw [hname]; exact hhost, ?_, hword, ?_⟩
    · rw [hname]
      intro x hx
      simpa using List.mem_takeWhile_imp hx
    · rw [hname, hs]
      have hsplit := hpath.append_left (s.takeWhile fun c => c ∉ [':', '/'])
      rw [List.takeWhile_append_dropWhile] at hsplit
      exact hsplit.trans (List.sublist_append_right _ _)

/-- Whatever is accepted is well formed. -/
theorem wellFormed_of_parseUrl (h : parseUrl url = some t) : t.WellFormed := by
  obtain ⟨-, hhost, hseparators, hword, hparts⟩ := parseUrl_parts h
  have hnul : ∀ c ∈ t.host ++ t.path, c ≠ '\x00' := by
    intro c hc
    simpa using List.mem_takeWhile_imp (hparts.subset hc)
  exact ⟨hhost, fun c hc => ⟨hseparators c hc, hnul c (List.mem_append_left _ hc)⟩,
    fun c hc => ⟨hword c hc, hnul c (List.mem_append_right _ hc)⟩⟩

end

/-- What stands in front of the first separator is the host. -/
theorem parseUrl_host {t : Target} (h : t.WellFormed) {rest : List Char}
    (hrest : ∀ c ∈ rest.head?, c ∈ [':', '/']) (hnul : ∀ c ∈ rest, c ≠ '\x00')
    (hlen : (scheme ++ t.host ++ rest).length < 512) :
    parseUrl (scheme ++ t.host ++ rest) = some (Target.behind t.host rest) := by
  have hclean : ∀ c ∈ scheme ++ t.host ++ rest, c ≠ '\x00' := by
    intro c hc
    rcases List.mem_append.mp hc with hc | hc
    · rcases List.mem_append.mp hc with hc | hc
      · have hall : ∀ c ∈ scheme, c ≠ '\x00' := by simp [scheme]
        exact hall c hc
      · exact (h.host c hc).2
    · exact hnul c hc
  have hs : cString (scheme ++ t.host ++ rest) = scheme ++ (t.host ++ rest) := by
    rw [Target.cString_eq hclean, List.append_assoc]
  obtain ⟨htake, hdrop⟩ := Target.host_split h hrest
  rw [parseUrl_eq hlen hs]
  simp only [htake, hdrop, if_neg h.host_ne]

/-- A URL is refused if it is too long or does not name a host; any other names a well-formed target. What a
    target is written as names it, with any numeral of the `int` that is its port or, for port 80, without;
    and a port that is no number counts as port 80, with everything behind the colon dropped. -/
theorem parseUrl_spec (url : List Char) (t : Target) :
    (parseUrl url = none ↔
      512 ≤ url.length ∨ ¬ ∃ c rest, cString url = scheme ++ c :: rest ∧ c ≠ ':' ∧ c ≠ '/') ∧
    (parseUrl url = some t → t.WellFormed) ∧
    (t.WellFormed →
      (∀ port, Numeral port t.port.toInt → (t.written port).length < 512 →
        parseUrl (t.written port) = some t) ∧
      (t.plain.length < 512 → t.port = 80 → parseUrl t.plain = some t) ∧
      ∀ rest, (∀ c ∈ rest, c ≠ '\x00') → scanInt rest = none →
        (scheme ++ t.host ++ ':' :: rest).length < 512 →
        parseUrl (scheme ++ t.host ++ ':' :: rest) = some ⟨t.host, 80, []⟩) := by
  refine ⟨parseUrl_none_iff, wellFormed_of_parseUrl, fun h => ⟨?_, ?_, ?_⟩⟩
  · intro port hport hlen
    obtain ⟨hhead, hnul⟩ := Target.resource_head h
    have hresource : ∀ c ∈ t.resource.head?, c.isDigit = false := fun c hc => hhead c hc ▸ by decide
    have hclean : ∀ c ∈ ':' :: port ++ t.resource, c ≠ '\x00' := by
      intro c hc
      rcases List.mem_append.mp hc with hc | hc
      · rcases List.mem_cons.mp hc with rfl | hc
        · decide
        · exact fun hzero => hport.notMem (c := '\x00') (by decide) (by decide) (by decide) (hzero ▸ hc)
      · exact hnul c hc
    unfold Target.written at hlen ⊢
    rw [List.append_assoc] at hlen ⊢
    rw [parseUrl_host h (by simp) hclean hlen]
    show some (Target.behind t.host (':' :: (port ++ t.resource))) = _
    simp only [Target.behind, scanInt_numeral hport hresource]
    unfold Target.resource
    by_cases hpath : t.path = []
    · simp only [if_pos hpath]
      rw [← hpath]
    · simp only [if_neg hpath, Target.scanWord_path h]
  · intro hlen hport
    obtain ⟨hhead, hnul⟩ := Target.resource_head h
    unfold Target.plain at hlen ⊢
    rw [parseUrl_host h (fun c hc => by simp [hhead c hc]) hnul hlen]
    obtain ⟨host, port, path⟩ := t
    obtain rfl : port = 80 := hport
    by_cases hpath : path = []
    · subst hpath
      rfl
    · have hword : scanWord path = path := Target.scanWord_path h
      simp [Target.resource, Target.behind, hpath, hword]
  · intro rest hnul hint hlen
    have hclean : ∀ c ∈ ':' :: rest, c ≠ '\x00' := by simpa using hnul
    rw [parseUrl_host h (by simp) hclean hlen]
    simp only [Target.behind, hint]

/-- `WEBSOCKET_URL`. -/
def webSocketUrl : Target := ⟨"localhost".toList, 8126, "foo".toList⟩

theorem parseUrl_spec_webSocketUrl : parseUrl "ws://localhost:8126/foo".toList = some webSocketUrl :=
  ((parseUrl_spec [] webSocketUrl).2.2 (by decide)).1 "8126".toList
    (.plain (by decide) (by simp [Char.isDigit])) (by decide)

end Epidemica
