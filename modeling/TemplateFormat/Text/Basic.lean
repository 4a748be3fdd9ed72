/-!
# Text

A text is its list of characters. Offsets and lengths are counted in bytes of the UTF-8 encoding
(`Text.bytes`); `isBoundary` is the test whether an offset lies between two characters, `takeBytes`
and `dropBytes` cut at an offset, moved down to the boundary of a character. `cut?` splits at the
first occurrence of a pattern, and `lines` at line feeds.

* `dropStart?_eq_some`, `dropEnding?_eq_some`: what is left of a text is the rest of it.
* `cut?_eq_some`: a cut loses nothing, the pattern stands between the two parts.
* `contains_eq_isSome_cut?`: a text can be cut at what it contains.
* `takeBytes_append_dropBytes`: the two parts at an offset give the text back.
-/

namespace TemplateFormat

/-- A text, as its characters in order. -/
abbrev Text := List Char

namespace Text

/-! ## Byte offsets -/

/-- Number of bytes of the UTF-8 encoding. -/
def bytes : Text → Nat
  | [] => 0
  | c :: t => c.utf8Size + bytes t

@[simp] theorem bytes_nil : bytes [] = 0 := rfl

@[simp] theorem bytes_cons (c : Char) (t : Text) : bytes (c :: t) = c.utf8Size + bytes t := rfl

@[simp] theorem bytes_append (s t : Text) : bytes (s ++ t) = bytes s + bytes t := by
  induction s with
  | nil => simp
  | cons c s ih => simp [ih, Nat.add_assoc]

/-- The offset lies between two characters, or at an end of the text. -/
def isBoundary : Nat → Text → Bool
  | n, [] => n == 0
  | n, c :: t => n == 0 || (c.utf8Size ≤ n && isBoundary (n - c.utf8Size) t)

/-- The characters that lie wholly in the first `n` bytes. -/
def takeBytes (n : Nat) : Text → Text
  | [] => []
  | c :: t => if c.utf8Size ≤ n then c :: takeBytes (n - c.utf8Size) t else []

/-- What is left after `takeBytes n`. -/
def dropBytes (n : Nat) : Text → Text
  | [] => []
  | c :: t => if c.utf8Size ≤ n then dropBytes (n - c.utf8Size) t else c :: t

theorem takeBytes_append_dropBytes (n : Nat) (t : Text) :
    takeBytes n t ++ dropBytes n t = t := by
  induction t generalizing n with
  | nil => rfl
  | cons c t ih =>
    unfold takeBytes dropBytes
    split <;> simp [ih]

/-! ## Beginnings and ends -/

/-- What follows `start`, if the text begins with it. -/
def dropStart? : Text → Text → Option Text
  | [], t => some t
  | _ :: _, [] => none
  | c :: start, d :: t => if c = d then dropStart? start t else none

/-- The text begins with `start`. -/
def startsWith (start t : Text) : Bool := (dropStart? start t).isSome

/-- What stands before `ending`, if the text ends with it. -/
def dropEnding? (ending t : Text) : Option Text :=
  (dropStart? ending.reverse t.reverse).map List.reverse

/-- The text ends with `ending`. -/
def endsWith (ending t : Text) : Bool := (dropEnding? ending t).isSome

theorem dropStart?_eq_some {start t rest : Text} :
    dropStart? start t = some rest ↔ t = start ++ rest := by
  induction start generalizing t with
  | nil => simp [dropStart?]
  | cons c start ih =>
    cases t with
    | nil => simp [dropStart?]
    | cons d t =>
      unfold dropStart?
      split
      · rename_i hc
        rw [ih, hc, List.cons_append, List.cons.injEq, and_iff_right rfl]
      · rename_i hc
        simp [Ne.symm hc]

theorem dropEnding?_eq_some {ending t rest : Text} :
    dropEnding? ending t = some rest ↔ t = rest ++ ending := by
  unfold dropEnding?
  rw [Option.map_eq_some_iff]
  constructor
  · rintro ⟨r, hr, rfl⟩
    rw [dropStart?_eq_some] at hr
    rw [← List.reverse_reverse t, hr, List.reverse_append, List.reverse_reverse]
  · rintro rfl
    exact ⟨rest.reverse, dropStart?_eq_some.2 (List.reverse_append ..), List.reverse_reverse rest⟩

/-! ## Searching -/

/-- The parts before and after the first occurrence of `pattern`. -/
def cut? (pattern : Text) : Text → Option (Text × Text)
  | [] => if pattern.isEmpty then some ([], []) else none
  | c :: t =>
    match dropStart? pattern (c :: t) with
    | some rest => some ([], rest)
    | none => (cut? pattern t).map fun p => (c :: p.1, p.2)

/-- The pattern occurs somewhere in the text. -/
def contains (pattern : Text) : Text → Bool
  | [] => pattern.isEmpty
  | c :: t => startsWith pattern (c :: t) || contains pattern t

theorem cut?_eq_some {pattern t before after : Text}
    (h : cut? pattern t = some (before, after)) : t = before ++ pattern ++ after := by
  induction t generalizing before after with
  | nil =>
    unfold cut? at h
    split at h
    · rename_i hp
      cases h
      rw [List.isEmpty_iff.1 hp]
      rfl
    · simp at h
  | cons c t ih =>
    unfold cut? at h
    split at h
    · rename_i rest hp
      cases h
      exact dropStart?_eq_some.1 hp
    · obtain ⟨⟨a, b⟩, hc, he⟩ := Option.map_eq_some_iff.1 h
      cases he
      rw [ih hc]
      rfl

/-- A text can be cut at a pattern exactly if the pattern occurs in it. -/
theorem contains_eq_isSome_cut? (pattern t : Text) :
    contains pattern t = (cut? pattern t).isSome := by
  induction t with
  | nil => cases pattern <;> rfl
  | cons c t ih =>
    unfold contains cut? startsWith
    rw [ih]
    cases dropStart? pattern (c :: t) with
    | none => rw [Option.isSome_none, Bool.false_or, Option.isSome_map]
    | some rest => rfl

theorem length_lt_of_cut? {pattern t before after : Text}
    (h : cut? pattern t = some (before, after)) (hp : pattern ≠ []) :
    after.length < t.length := by
  have hl := congrArg List.length (cut?_eq_some h)
  have hpos := List.length_pos_iff.2 hp
  rw [List.length_append, List.length_append] at hl
  omega

/-- Every occurrence of `old`, left to right and without overlap, becomes `new`; the empty text
occurs before every character and at the end. -/
def replace (old new t : Text) : Text :=
  match old with
  | [] => new ++ t.flatMap fun c => c :: new
  | _ :: _ => go t
where
  /-- The replacement for a pattern that is not empty: each step passes a character. -/
  go (t : Text) : Text :=
    match t with
    | [] => []
    | c :: rest =>
      if startsWith old (c :: rest) then new ++ go (rest.drop (old.length - 1))
      else c :: go rest
  termination_by t.length
  decreasing_by
    all_goals simp only [List.length_cons, List.length_drop]
    all_goals omega

/-! ## Lines and edges -/

/-- The pieces between occurrences of `sep`; always at least one. -/
def splitOn (sep : Char) : Text → List Text
  | [] => [[]]
  | c :: t =>
    if c = sep then [] :: splitOn sep t
    else
      match splitOn sep t with
      | [] => [[c]]
      | piece :: rest => (c :: piece) :: rest

/-- The lines of a text, without their line feeds; the last one may be empty. -/
def lines (t : Text) : List Text := splitOn '\n' t

theorem splitOn_ne_nil (sep : Char) (t : Text) : splitOn sep t ≠ [] := by
  cases t with
  | nil => simp [splitOn]
  | cons c t =>
    unfold splitOn
    split
    · simp
    · split <;> simp

/-- Drop the characters at the end that satisfy `p`. -/
def trimEndBy (p : Char → Bool) (t : Text) : Text := (t.reverse.dropWhile p).reverse

/-- Drop the characters at both ends that satisfy `p`. -/
def trimBy (p : Char → Bool) (t : Text) : Text := trimEndBy p (t.dropWhile p)

/-- The part after the last line feed, or the whole text. -/
def lastLine (t : Text) : Text := (t.reverse.takeWhile (· != '\n')).reverse

/-- The part before the first line feed, or the whole text. -/
def firstLine (t : Text) : Text := t.takeWhile (· != '\n')

/-- Upper case letters of the basic alphabet become lower case; all else stays. -/
def lowerAscii (t : Text) : Text := t.map Char.toLower

end Text

end TemplateFormat
