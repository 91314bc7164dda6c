import JarRemap.Proofs.Manifest.RoundTrip

/-!
# Manifest lines in bytes

A header that is too long for a line is cut where the line is full, or up to three bytes before
where a character would be cut, and goes on behind a line break and a space. This is a loop over the
bytes that are left. It comes to an end since a line has room for any character, and it writes the
folded text. No line is too long, each is a text of its own, and the header comes back when every
line break with its space is taken out.
-/

namespace JarRemap.Manifest

open Text

/-- The bytes that end a line. -/
def lineBreak : List UInt8 := [0x0D, 0x0A]

/-- Whether an offset is between two characters: at an end of the bytes, or before a byte that does
not continue a character. -/
def isBoundary (bytes : List UInt8) (offset : Nat) : Bool :=
  match bytes[offset]? with
  | none => offset = bytes.length
  | some b => offset = 0 || !isContinuation b

/-- Step back from an offset until it is between two characters. -/
def stepBack (bytes : List UInt8) : Nat → Nat
  | 0 => 0
  | n + 1 => if isBoundary bytes (n + 1) then n + 1 else stepBack bytes n

/-- A header that is being written: the bytes that are written, those that are left, and how many of
them the next line may take. -/
structure Wrapping where
  written : List UInt8
  remaining : List UInt8
  limit : Nat

namespace Wrapping

/-- Write one line: the last one, or one that another follows. -/
def pass (w : Wrapping) : List UInt8 ⊕ Wrapping :=
  if w.remaining.length ≤ w.limit then .inl (w.written ++ w.remaining ++ lineBreak)
  else
    let split := stepBack w.remaining w.limit
    .inr
      { written := w.written ++ w.remaining.take split ++ lineBreak ++ [0x20]
        remaining := w.remaining.drop split
        limit := lineLimit - 1 }

/-- Write lines up to the last one; nothing if there are more than a number of them. -/
def run? : Nat → Wrapping → Option (List UInt8)
  | 0, _ => none
  | n + 1, w =>
      match w.pass with
      | .inl written => some written
      | .inr next => next.run? n

end Wrapping

/-- The lines of bytes without their line breaks, of which the last may be missing; `line` holds the
line that is being read, last byte first. -/
def byteLines (line : List UInt8) : List UInt8 → List (List UInt8)
  | 0x0D :: 0x0A :: rest => line.reverse :: byteLines [] rest
  | b :: rest => byteLines (b :: line) rest
  | [] => if line.isEmpty then [] else [line.reverse]

/-- Bytes without the line breaks that a space follows, and without these spaces. -/
def joinLines : List UInt8 → List UInt8
  | 0x0D :: 0x0A :: 0x20 :: rest => joinLines rest
  | b :: rest => b :: joinLines rest
  | [] => []

/-!
## Cuts between characters

The offsets between the bytes of one character are no boundaries, so stepping back from a full line
leads to the end of the last character that fits.
-/

section Cuts

variable {s : List Char} {room : Nat}

/-- The end of a text is between two characters, or it is the end of all. -/
theorem isBoundary_length_encode (a b : List Char) :
    isBoundary (encode (a ++ b)) (encode a).length = true := by
  rw [encode_append, isBoundary, List.getElem?_append_right (Nat.le_refl _), Nat.sub_self]
  cases b with
  | nil => simp [encode]
  | cons c b =>
    obtain ⟨first, others, hc, hfirst, -⟩ := exists_encodeChar_eq c
    simp [encode, hc, hfirst]

/-- No offset inside of a character is a boundary. -/
theorem isBoundary_eq_false (a : List Char) (c : Char) (b : List Char) {offset : Nat}
    (hlow : (encode a).length < offset) (hhigh : offset < (encode a).length + encodedSize c) :
    isBoundary (encode (a ++ c :: b)) offset = false := by
  obtain ⟨first, others, hc, -, -, hothers⟩ := exists_encodeChar_eq c
  rw [encodedSize, hc, List.length_cons] at hhigh
  obtain ⟨k, rfl⟩ := Nat.exists_eq_add_of_lt hlow
  have hk : k < others.length := by omega
  have hbyte : (encode (a ++ c :: b))[(encode a).length + k + 1]? = some others[k] := by
    rw [encode_append, Nat.add_assoc, List.getElem?_append_right (Nat.le_add_right _ _),
      Nat.add_sub_cancel_left, encode, List.flatMap_cons, hc, List.cons_append,
      List.getElem?_cons_succ, List.getElem?_append_left hk, List.getElem?_eq_getElem hk]
  rw [isBoundary, hbyte]
  simp [hothers _ (List.getElem_mem hk)]

/-- Stepping back ends at the last boundary. -/
theorem stepBack_eq {bytes : List UInt8} {last n : Nat} (hle : last ≤ n)
    (hlast : isBoundary bytes last = true)
    (hnone : ∀ offset, last < offset → offset ≤ n → isBoundary bytes offset = false) :
    stepBack bytes n = last := by
  induction n with
  | zero => exact (Nat.le_zero.1 hle).symm
  | succ n ih =>
    rw [stepBack]
    rcases Nat.lt_or_eq_of_le hle with hlt | rfl
    · rw [hnone (n + 1) hlt (Nat.le_refl _), if_neg Bool.false_ne_true]
      exact ih (Nat.le_of_lt_succ hlt) fun offset hoffset hn =>
        hnone offset hoffset (Nat.le_succ_of_le hn)
    · rw [hlast, if_pos rfl]

/-- A text that does not fit goes on with a character for which there is no room, and what follows
from there is folded on lines of its own. -/
theorem exists_fitting_append (h : room < (encode s).length) :
    ∃ c rest, s = fitting room s ++ c :: rest ∧
      room < (encode (fitting room s)).length + encodedSize c ∧
      (pieces room s).2 =
        fitting (lineLimit - 1) (c :: rest) :: (pieces (lineLimit - 1) (c :: rest)).2 := by
  induction s generalizing room with
  | nil => exact absurd h (Nat.not_lt_zero room)
  | cons c s ih =>
    rw [length_encode_cons] at h
    by_cases hc : encodedSize c ≤ room
    · have hlong : room - encodedSize c < (encode s).length := by omega
      obtain ⟨next, rest, hs, hnext, hpieces⟩ := ih hlong
      have hfitting : fitting room (c :: s) = c :: fitting (room - encodedSize c) s := by
        rw [fitting, pieces]
        dsimp only
        rw [if_pos hc, fitting]
      refine ⟨next, rest, ?_, ?_, ?_⟩
      · rw [hfitting, List.cons_append, ← hs]
      · rw [hfitting, length_encode_cons]
        omega
      · rw [← hpieces, pieces]
        dsimp only
        rw [if_pos hc]
    · have hfitting : fitting room (c :: s) = [] := by
        rw [fitting, pieces]
        dsimp only
        rw [if_neg hc]
      have hline : encodedSize c ≤ lineLimit - 1 :=
        Nat.le_trans (encodedSize_le c) (by decide)
      refine ⟨c, s, ?_, ?_, ?_⟩
      · rw [hfitting, List.nil_append]
      · rw [hfitting]
        exact Nat.lt_of_lt_of_eq (Nat.lt_of_not_le hc) (Nat.zero_add _).symm
      · rw [fitting, pieces, pieces]
        dsimp only
        rw [if_neg hc, if_pos hline]

/-- Stepping back from a full line leads to the end of what fits. -/
theorem stepBack_encode (h : room < (encode s).length) :
    stepBack (encode s) room = (encode (fitting room s)).length := by
  obtain ⟨c, rest, hs, hnext, -⟩ := exists_fitting_append h
  refine stepBack_eq (length_encode_fitting_le room s) ?_ ?_
  · have hboundary := isBoundary_length_encode (fitting room s) (c :: rest)
    rwa [← hs] at hboundary
  · intro offset hlow hhigh
    have hinside := isBoundary_eq_false (fitting room s) c rest hlow (by omega)
    rwa [← hs] at hinside

/-- A text that fits is folded to one line. -/
theorem fold_of_le (h : (encode s).length ≤ room) : fold room s = s ++ ['\r', '\n'] := by
  have hpieces := pieces_append h []
  rw [List.append_nil] at hpieces
  rw [fold_eq, fitting_eq_iff.2 h, hpieces]
  rfl

/-- A text that does not fit is folded to what fits, and to the rest on lines of their own. -/
theorem fold_of_lt {c : Char} {rest : List Char}
    (hpieces : (pieces room s).2 =
      fitting (lineLimit - 1) (c :: rest) :: (pieces (lineLimit - 1) (c :: rest)).2) :
    fold room s =
      fitting room s ++ '\r' :: '\n' :: ' ' :: fold (lineLimit - 1) (c :: rest) := by
  rw [fold_eq, hpieces, fold_eq (lineLimit - 1)]
  simp

end Cuts

/-!
## Passes

The first character that is left is no longer than a line, so each pass takes some of them away.
-/

section Passes

variable {s : List Char} {room : Nat}

/-- The passes write the folded text, and there are no more of them than bytes, and the last. -/
theorem run?_eq (hroom : 4 ≤ room) {passes : Nat} (hpasses : (encode s).length < passes)
    (written : List UInt8) :
    Wrapping.run? passes ⟨written, encode s, room⟩ = some (written ++ encode (fold room s)) := by
  induction passes generalizing s room written with
  | zero => exact absurd hpasses (Nat.not_lt_zero _)
  | succ passes ih =>
    by_cases hfits : (encode s).length ≤ room
    · have hpass : Wrapping.pass ⟨written, encode s, room⟩ =
          .inl (written ++ encode s ++ lineBreak) := if_pos hfits
      rw [Wrapping.run?, hpass, fold_of_le hfits, encode_append, ← List.append_assoc]
      rfl
    · have hlong := Nat.lt_of_not_le hfits
      obtain ⟨c, rest, hs, hnext, hpieces⟩ := exists_fitting_append hlong
      have hbytes : encode s = encode (fitting room s) ++ encode (c :: rest) := by
        rw [← encode_append, ← hs]
      have hpass : Wrapping.pass ⟨written, encode s, room⟩ =
          .inr ⟨written ++ encode (fitting room s) ++ lineBreak ++ [0x20], encode (c :: rest),
            lineLimit - 1⟩ := by
        rw [Wrapping.pass, if_neg hfits]
        dsimp only
        rw [stepBack_encode hlong, hbytes, List.take_left, List.drop_left]
      have hprogress : (encode (c :: rest)).length < passes := by
        have hsize := encodedSize_le c
        rw [hbytes, List.length_append] at hpasses
        omega
      have hfold : encode (fold room s) =
          encode (fitting room s) ++ lineBreak ++ [0x20] ++
            encode (fold (lineLimit - 1) (c :: rest)) := by
        rw [fold_of_lt hpieces, encode_append, List.append_assoc, List.append_assoc]
        rfl
      rw [Wrapping.run?, hpass]
      dsimp only
      rw [ih (by decide) hprogress, hfold]
      simp only [List.append_assoc]

end Passes

/-!
## Lines of bytes

What is folded holds no line feed, so the lines of the folded bytes are the pieces, all but the
first behind a space.
-/

section Lines

variable {bytes : List UInt8}

/-- No line feed comes first where bytes without one end a line. -/
theorem append_lineBreak_ne (h : 0x0A ∉ bytes) (rest more : List UInt8) :
    bytes ++ lineBreak ++ rest ≠ 0x0A :: more := by
  intro heq
  cases bytes with
  | nil => exact absurd (List.cons.inj heq).1 (by decide)
  | cons next bytes => exact h ((List.cons.inj heq).1 ▸ List.mem_cons_self)

theorem byteLines_append (h : 0x0A ∉ bytes) (line rest : List UInt8) :
    byteLines line (bytes ++ lineBreak ++ rest) = (line.reverse ++ bytes) :: byteLines [] rest := by
  induction bytes generalizing line with
  | nil => simp [lineBreak, byteLines]
  | cons b bytes ih =>
    have hbytes : 0x0A ∉ bytes := fun hmem => h (List.mem_cons_of_mem b hmem)
    rw [List.cons_append, List.cons_append,
      byteLines.eq_2 _ _ _ fun more _ => append_lineBreak_ne hbytes rest more, ih hbytes]
    simp

theorem joinLines_append (h : 0x0A ∉ bytes) (rest : List UInt8) :
    joinLines (bytes ++ lineBreak ++ rest) = bytes ++ joinLines (lineBreak ++ rest) := by
  induction bytes with
  | nil => rfl
  | cons b bytes ih =>
    have hbytes : 0x0A ∉ bytes := fun hmem => h (List.mem_cons_of_mem b hmem)
    rw [List.cons_append, List.cons_append,
      joinLines.eq_2 _ _ fun more _ => append_lineBreak_ne hbytes rest (0x20 :: more), ih hbytes,
      List.cons_append]

/-- Texts as bytes, each with a line break. -/
def encodeLines (texts : List (List Char)) : List UInt8 :=
  texts.flatMap fun text => encode text ++ lineBreak

theorem encodeLines_cons (text : List Char) (texts : List (List Char)) :
    encodeLines (text :: texts) = encode text ++ lineBreak ++ encodeLines texts := rfl

/-- The lines that a text is folded to. -/
def foldedLines (room : Nat) (s : List Char) : List (List Char) :=
  fitting room s :: (pieces room s).2.map (' ' :: ·)

theorem encode_fold (room : Nat) (s : List Char) :
    encode (fold room s) = encodeLines (foldedLines room s) := by
  have hpieces : ∀ more : List (List Char),
      encode (more.flatMap fun piece => ' ' :: piece ++ ['\r', '\n']) =
        encodeLines (more.map (' ' :: ·)) := by
    intro more
    induction more with
    | nil => rfl
    | cons piece more ih =>
      rw [List.flatMap_cons, encode_append, encode_append, ih]
      rfl
  rw [fold_eq, encode_append, foldedLines, encodeLines_cons, ← hpieces, List.append_assoc]
  rfl

/-- Lines come back from their bytes. -/
theorem byteLines_encodeLines {texts : List (List Char)} (h : ∀ text ∈ texts, '\n' ∉ text) :
    byteLines [] (encodeLines texts) = texts.map encode := by
  induction texts with
  | nil => rfl
  | cons text texts ih =>
    obtain ⟨htext, htexts⟩ := List.forall_mem_cons.1 h
    rw [encodeLines_cons, byteLines_append (lineFeed_notMem_encode htext), ih htexts]
    rfl

/-- A text comes back from the lines it is folded to. -/
theorem joinLines_encodeLines {first : List Char} {more : List (List Char)} (hfirst : '\n' ∉ first)
    (hmore : ∀ piece ∈ more, '\n' ∉ piece) :
    joinLines (encodeLines (first :: more.map (' ' :: ·))) =
      encode (first ++ more.flatten) ++ lineBreak := by
  rw [encodeLines_cons, joinLines_append (lineFeed_notMem_encode hfirst), encode_append,
    List.append_assoc]
  refine congrArg (encode first ++ ·) ?_
  induction more with
  | nil => rfl
  | cons piece more ih =>
    obtain ⟨hpiece, hrest⟩ := List.forall_mem_cons.1 hmore
    calc joinLines (lineBreak ++ encodeLines ((piece :: more).map (' ' :: ·)))
        = joinLines (encode piece ++ lineBreak ++ encodeLines (more.map (' ' :: ·))) := rfl
      _ = encode piece ++ (encode more.flatten ++ lineBreak) := by
          rw [joinLines_append (lineFeed_notMem_encode hpiece), ih hrest]
      _ = encode (piece :: more).flatten ++ lineBreak := by
          rw [List.flatten_cons, encode_append, List.append_assoc]

/-- What is left for a line after the first is no longer than a line with a space before it. -/
theorem length_encode_le_of_mem_pieces {room : Nat} {s piece : List Char}
    (h : piece ∈ (pieces room s).2) : (encode piece).length ≤ lineLimit - 1 := by
  induction s generalizing room with
  | nil => cases h
  | cons c s ih =>
    rw [pieces] at h
    dsimp only at h
    split at h
    · exact ih h
    · rcases List.mem_cons.1 h with rfl | hlater
      · have hsize : encodedSize c ≤ lineLimit - 1 := Nat.le_trans (encodedSize_le c) (by decide)
        have hrest := length_encode_fitting_le (lineLimit - 1 - encodedSize c) s
        rw [length_encode_cons]
        rw [fitting] at hrest
        omega
      · exact ih hlater

theorem length_encode_le_of_mem_foldedLines {s line : List Char}
    (h : line ∈ foldedLines lineLimit s) : (encode line).length ≤ lineLimit := by
  rcases List.mem_cons.1 h with rfl | hlater
  · exact length_encode_fitting_le lineLimit s
  · obtain ⟨piece, hpiece, rfl⟩ := List.mem_map.1 hlater
    have hroom := length_encode_le_of_mem_pieces hpiece
    exact Nat.succ_le_succ hroom

/-- How bytes hold a header: they are lines with a line break after each, the lines are texts that
are not too long, and the header is what is left without each line break that a space follows, and
without these spaces. -/
structure IsWrapped (header bytes : List UInt8) : Prop where
  broken : bytes = (byteLines [] bytes).flatMap (· ++ lineBreak)
  fits : ∀ line ∈ byteLines [] bytes, line.length ≤ lineLimit
  texts : ∀ line ∈ byteLines [] bytes, (decode? line).isSome
  continued : ∀ line ∈ (byteLines [] bytes).tail, line.head? = some 0x20
  whole : joinLines bytes = header ++ lineBreak

theorem isWrapped_fold {s : List Char} (h : '\n' ∉ s) :
    IsWrapped (encode s) (encode (fold lineLimit s)) := by
  have hparts : '\n' ∉ fitting lineLimit s ∧ ∀ piece ∈ (pieces lineLimit s).2, '\n' ∉ piece := by
    rw [← fitting_append_flatten lineLimit s] at h
    simpa using h
  have hlines : byteLines [] (encode (fold lineLimit s)) =
      (foldedLines lineLimit s).map encode := by
    rw [encode_fold]
    refine byteLines_encodeLines (List.forall_mem_cons.2 ⟨hparts.1, ?_⟩)
    simpa using hparts.2
  refine ⟨?_, ?_, ?_, ?_, ?_⟩
  · rw [hlines, encode_fold, List.flatMap_map]
    rfl
  · rw [hlines, List.forall_mem_map]
    exact fun line hline => length_encode_le_of_mem_foldedLines hline
  · rw [hlines, List.forall_mem_map]
    exact fun line _ => by rw [decode?_encode, Option.isSome_some]
  · rw [hlines, foldedLines, List.map_cons, List.tail_cons, List.map_map, List.forall_mem_map]
    exact fun piece _ => rfl
  · rw [encode_fold, foldedLines, joinLines_encodeLines hparts.1 hparts.2,
      fitting_append_flatten]

end Lines

/-- A header is written in finitely many passes, whatever is written before it, and it is written as
lines of at most 72 bytes that hold the key, a colon, a space and the value. -/
theorem isWrapped_printAttribute (key value : String) (hkey : '\n' ∉ key.toList)
    (hvalue : '\n' ∉ value.toList) :
    let header := encode (key.toList ++ ':' :: ' ' :: value.toList)
    (∀ written passes, header.length < passes →
      Wrapping.run? passes ⟨written, header, lineLimit⟩ =
        some (written ++ encode (printAttribute key value))) ∧
    IsWrapped header (encode (printAttribute key value)) :=
  ⟨fun written _ hpasses => run?_eq (by decide) hpasses written,
    isWrapped_fold (by simp [hkey, hvalue])⟩

/-- The first line has room for one more byte, and the next character has two. -/
theorem isWrapped_printAttribute_wide :
    '\n' ∉ "Title".toList ∧ '\n' ∉ (String.ofList (List.replicate 40 'é')).toList ∧
      (byteLines [] (encode (printAttribute "Title" (String.ofList (List.replicate 40 'é'))))).map
        List.length = [71, 17] ∧
      IsWrapped
        (encode ("Title".toList ++ ':' :: ' ' :: (String.ofList (List.replicate 40 'é')).toList))
        (encode (printAttribute "Title" (String.ofList (List.replicate 40 'é')))) := by
  have hkey : '\n' ∉ "Title".toList := by decide
  have hvalue : '\n' ∉ (String.ofList (List.replicate 40 'é')).toList := by simp
  exact ⟨hkey, hvalue, by decide +kernel, (isWrapped_printAttribute _ _ hkey hvalue).2⟩

end JarRemap.Manifest
