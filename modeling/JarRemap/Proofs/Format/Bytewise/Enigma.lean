import JarRemap.Proofs.Format.Bytewise.Reader
import JarRemap.Proofs.Text.Words
import JarRemap.Format.Bytewise.Enigma

/-!
# Where the nested class format leaves the bounds

The records that are kept by index have been read, a class of every smaller depth is open, and the
offsets of remarks were looked up. One cut remains: that behind the first seven bytes of a comment,
whose line need not begin with its first word. It crashes where the plain parser has no text.
-/

namespace JarRemap.Format.Bytewise.Enigma

open Checked (lift fail)
open JarRemap.Format.Enigma (Outer Method addComment contentWords dropBytes?)

variable {ε : Type} {s : State} {t : Format.Enigma.State}

/-- How a line ends the reading: a comment that would begin inside a character by a crash. -/
def stopOf : Fault → Stop Fault
  | .commentInsideCharacter => .crash .cut
  | fault => .error fault

/-- The record of a method. -/
def Describes (r : Record) (m : Method) : Prop :=
  r.element = .method m.owner (some m.desc) ∧ r.key? = some m.name

/-- A state keeps the indices of the records that another one keeps the data of. -/
structure Points (s : State) (t : Format.Enigma.State) : Prop where
  records : s.records = t.records
  classes : s.classes = t.classes
  last : s.last = t.last
  bound : ∀ index depth, t.last = some (index, depth) → index < t.records.size
  none_iff : s.method = none ↔ t.method = none
  method : ∀ index depth m, s.method = some (index, depth) → t.method = some m →
    depth = m.depth ∧ ∃ r, t.records[index]? = some r ∧ Describes r m

section Cuts

theorem content_eq (line : List Char) :
    (content line : Checked ε _) = .ok (Format.Enigma.content line) := by
  unfold content Format.Enigma.content
  by_cases hcomment : "COMMENT".toList.isPrefixOf (Text.trimStart line) = true
  · rw [if_pos hcomment]
    cases Text.find? (· = '#') line with
    | none => rfl
    | some remark => exact if_pos hcomment
  · rw [if_neg hcomment, Text.takeWhile_ne_eq]
    cases hremark : Text.cut? '#' line with
    | none => rw [Text.find?_eq, hremark]; rfl
    | some parts =>
      rw [Text.find?_of_cut? (a := parts.1) (b := parts.2) hremark]
      simp only [if_neg hcomment]
      exact Text.upTo_of_cut? (b := parts.2) hremark

theorem dropBytes?_eq (n : Nat) (line : List Char) :
    dropBytes? n line = (Text.splitAt? n line).map Prod.snd := by
  induction n, line using Text.splitAt?.induct with
  | case1 line => cases line <;> rfl
  | case2 n => rfl
  | case3 n c rest hfits ih =>
    rw [dropBytes?, Text.splitAt?, if_pos hfits, if_pos hfits, ih, Option.map_map]
    · rfl
    · simp
  | case4 n c rest hfits =>
    rw [dropBytes?, Text.splitAt?, if_neg hfits, if_neg hfits]
    · rfl
    · simp

end Cuts

section Points

theorem points_start : Points .start .start where
  records := rfl
  classes := rfl
  last := rfl
  bound := by rintro index depth ⟨⟩
  none_iff := ⟨fun _ => rfl, fun _ => rfl⟩
  method := by rintro index depth m ⟨⟩

theorem push_eq (s : State) (depth : Nat) (r : Record) :
    (s.push depth r : Checked ε _) =
      .ok { s with records := s.records.push r, last := some (s.records.size, depth) } := by
  rw [State.push, Checked.sub_size_push]
  rfl

theorem Points.push (h : Points s t) (depth : Nat) (r : Record) :
    Points { s with records := s.records.push r, last := some (s.records.size, depth) }
      (t.push depth r) where
  records := by rw [h.records]; rfl
  classes := h.classes
  last := by rw [h.records]; rfl
  bound index depth' hlast := by
    obtain ⟨rfl, -⟩ := Prod.mk.inj (Option.some.inj hlast)
    simp [Format.Enigma.State.push]
  none_iff := h.none_iff
  method index depth' m hs ht := by
    obtain ⟨hdepth, before, hbefore, hdescribes⟩ := h.method index depth' m hs ht
    exact ⟨hdepth, before, getElem?_push_of_eq_some hbefore r, hdescribes⟩

/-- Other classes are open. -/
theorem Points.withClasses (h : Points s t) (classes : List Outer) :
    Points { s with classes := classes } { t with classes := classes } :=
  ⟨h.records, rfl, h.last, h.bound, h.none_iff, h.method⟩

/-- No method is open any more. -/
theorem Points.withoutMethod (h : Points s t) :
    Points { s with method := none } { t with method := none } :=
  ⟨h.records, h.classes, h.last, h.bound, ⟨fun _ => rfl, fun _ => rfl⟩, by rintro _ _ _ ⟨⟩⟩

/-- The record of a method has been read. -/
theorem Points.withMethod (h : Points s t) {index depth : Nat} {m : Method} {r : Record}
    (hdepth : depth = m.depth) (hr : t.records[index]? = some r) (hdescribes : Describes r m) :
    Points { s with method := some (index, depth) } { t with method := some m } where
  records := h.records
  classes := h.classes
  last := h.last
  bound := h.bound
  none_iff := by simp
  method index' depth' m' hs ht := by
    obtain ⟨rfl, rfl⟩ := Prod.mk.inj (Option.some.inj hs)
    obtain rfl := Option.some.inj ht
    exact ⟨hdepth, r, hr, hdescribes⟩

/-- A comment changes nothing that a record is asked for. -/
theorem Points.withComment (h : Points s t) (index : Nat) (text : String) :
    Points { s with records := s.records.modify index (addComment text) }
      { t with records := t.records.modify index (addComment text) } where
  records := by rw [h.records]
  classes := h.classes
  last := h.last
  bound index' depth hlast := by
    rw [Array.size_modify]
    exact h.bound index' depth hlast
  none_iff := h.none_iff
  method index' depth m hs ht := by
    obtain ⟨hdepth, r, hr, hdescribes⟩ := h.method index' depth m hs ht
    refine ⟨hdepth, if index = index' then addComment text r else r, ?_, ?_⟩
    · rw [Array.getElem?_modify, hr]
      split <;> rfl
    · split
      · exact hdescribes
      · exact hdescribes

end Points

section Lines

theorem follows_fail {fault : Fault} (h : stopOf fault = .error fault) :
    Follows stopOf Points (fail fault) (.error fault) := congrArg Except.error h.symm

theorem openClass_follows (h : Points s t) (depth : Nat) (simple : String)
    (readable : Option String) :
    Follows stopOf Points (openClass s depth simple readable)
      (Format.Enigma.classLine t depth simple readable) := by
  unfold openClass Format.Enigma.classLine
  rw [h.classes]
  by_cases hdepth : t.classes.length < depth
  · rw [if_pos hdepth, if_pos hdepth]
    exact follows_fail rfl
  · rw [if_neg hdepth, if_neg hdepth]
    simp only [push_eq, Checked.ok_bind]
    exact follows_ok ((h.push depth _).withClasses _).withoutMethod

theorem classLine_follows (h : Points s t) (depth : Nat) (kind : List Char)
    (words : List (List Char)) :
    Follows stopOf Points (classLine s depth (kind :: words))
      (match words with
        | [simple] => Format.Enigma.classLine t depth (String.ofList simple) none
        | [simple, readable] => Format.Enigma.classLine t depth (String.ofList simple)
            (some (String.ofList readable))
        | _ => .error (.expected "CLASS obf [named]")) := by
  rcases words with _ | ⟨simple, _ | ⟨readable, _ | ⟨more, words⟩⟩⟩
  · exact follows_fail rfl
  · exact openClass_follows h depth _ none
  · exact openClass_follows h depth _ _
  · rw [classLine, if_pos (.inr (by simp +arith))]
    exact follows_fail rfl

/-- A class of every smaller depth is open. -/
theorem exists_getLast?_take {classes : List Outer} {depth : Nat}
    (h : ¬ (depth = 0 ∨ classes.length < depth)) :
    ∃ outer, (classes.take depth).getLast? = some outer ∧
      (classes.take depth)[depth - 1]? = some outer := by
  obtain ⟨hpos, hle⟩ := not_or.1 h
  have hlength : (classes.take depth).length = depth := by
    rw [List.length_take, Nat.min_eq_left (Nat.le_of_not_lt hle)]
  have hindex : depth - 1 < (classes.take depth).length := by omega
  refine ⟨(classes.take depth)[depth - 1], ?_, List.getElem?_eq_getElem hindex⟩
  rw [List.getLast?_eq_getElem?, hlength, List.getElem?_eq_getElem hindex]

/-- A field or a method is added to the class around it. -/
theorem addMember_follows (h : Points s t) (depth : Nat) (kind : String) (owner : String)
    (name : List Char) (named : Option String) (desc : List Char) :
    Follows stopOf Points
      (addMember s depth kind owner (String.ofList name) named (String.ofList desc))
      (.ok (if kind = "FIELD" then
          { t.push depth ⟨.field owner (some (String.ofList desc)),
              [some (String.ofList name), named], none⟩ with method := none }
        else
          { t.push depth ⟨.method owner (some (String.ofList desc)),
              [some (String.ofList name), named], none⟩ with
            method := some ⟨owner, String.ofList name, String.ofList desc, depth⟩ })) := by
  unfold addMember
  by_cases hkind : kind = "FIELD"
  · rw [if_pos hkind, if_pos hkind]
    simp only [push_eq, Checked.ok_bind]
    exact follows_ok (h.push depth _).withoutMethod
  · rw [if_neg hkind, if_neg hkind]
    simp only [push_eq, Checked.ok_bind, Checked.sub_size_push]
    generalize hr : (⟨.method owner (some (String.ofList desc)),
      [some (String.ofList name), named], none⟩ : Record) = r
    have hread : (t.push depth r).records[s.records.size]? = some r := by
      rw [h.records]
      exact Array.getElem?_push_size
    exact follows_ok ((h.push depth r).withMethod rfl hread ⟨hr ▸ rfl, hr ▸ rfl⟩)

theorem memberLine_follows (h : Points s t) (depth : Nat) (kind : String) (first : List Char)
    (words : List (List Char)) :
    Follows stopOf Points (memberLine s depth kind (first :: words))
      (Format.Enigma.memberLine t depth kind words) := by
  unfold memberLine Format.Enigma.memberLine
  rw [h.classes]
  by_cases hdepth : depth = 0 ∨ t.classes.length < depth
  · rw [if_pos hdepth]
    cases hlast : (t.classes.take depth).getLast? with
    | none => exact follows_fail rfl
    | some outer =>
      have hne : depth ≠ 0 := by
        rintro rfl
        cases hlast
      simp only [if_pos (hdepth.resolve_left hne)]
      exact follows_fail rfl
  · rw [if_neg hdepth]
    obtain ⟨outer, hlast, hindex⟩ := exists_getLast?_take hdepth
    obtain ⟨hpos, hle⟩ := not_or.1 hdepth
    have houter : (Checked.at_ (t.classes.take depth) (depth - 1) : Checked Fault _) = .ok outer := by
      rw [Checked.at_, hindex, Checked.need_some]
    simp only [hlast, if_neg hle, Checked.sub_of_le (Nat.one_le_iff_ne_zero.2 hpos), houter,
      Checked.ok_bind]
    have hclasses := h.withClasses (t.classes.take depth)
    rcases words with _ | ⟨name, _ | ⟨a, _ | ⟨b, _ | ⟨c, words⟩⟩⟩⟩
    · exact follows_fail rfl
    · exact follows_fail rfl
    · exact addMember_follows hclasses depth kind outer.old name none a
    · exact addMember_follows hclasses depth kind outer.old name (some (String.ofList a)) b
    · exact follows_fail rfl

theorem argumentLine_follows (h : Points s t) (depth : Nat) (first : List Char)
    (words : List (List Char)) :
    Follows stopOf Points (argumentLine s depth (first :: words))
      (Format.Enigma.argumentLine t depth words) := by
  unfold argumentLine Format.Enigma.argumentLine
  cases hmethod : t.method with
  | none =>
    rw [h.none_iff.2 hmethod]
    exact follows_fail rfl
  | some m =>
    obtain ⟨⟨index, depth'⟩, hindex⟩ : ∃ item, s.method = some item := by
      rw [← Option.ne_none_iff_exists', ne_eq, h.none_iff, hmethod]
      exact Option.some_ne_none m
    obtain ⟨rfl, r, hr, helement, hkey⟩ := h.method index depth' m hindex hmethod
    rw [hindex, Option.filter_some, Option.filter_some]
    by_cases hdepth : m.depth + 1 = depth
    · simp only [hdepth, decide_true, if_true, h.records, hr, helement, hkey, Checked.need_some,
        Checked.ok_bind, Option.getD_some]
      rcases words with _ | ⟨word, _ | ⟨name, _ | ⟨more, words⟩⟩⟩
      · exact follows_fail rfl
      · exact follows_fail rfl
      · simp only [List.length_cons, List.length_nil, ne_eq, not_true_eq_false, if_false,
          Checked.at_succ, Checked.at_zero, Checked.ok_bind, push_eq]
        unfold readIndex
        cases Text.index? word with
        | none => exact follows_fail rfl
        | some i => exact follows_ok (h.push depth _)
      · exact follows_fail rfl
    · simp only [hdepth, decide_false, Bool.false_eq_true, if_false]
      exact follows_fail rfl

theorem commentLine_follows (h : Points s t) (depth : Nat) (line : List Char) :
    Follows stopOf Points (commentLine s depth line) (Format.Enigma.commentLine t depth line) := by
  unfold commentLine Format.Enigma.commentLine
  rw [h.last]
  cases hlast : t.last.filter fun last => last.2 < depth with
  | none => exact follows_fail rfl
  | some item =>
    obtain ⟨index, depth'⟩ := item
    have hindex := h.bound index depth' (Option.filter_eq_some_iff.1 hlast).1
    simp only [Text.behind, dropBytes?_eq]
    cases Text.splitAt? "COMMENT".utf8ByteSize (Text.trimStart line) with
    | none => rfl
    | some parts =>
      simp only [Option.map_some, Checked.need_some, Checked.ok_bind, h.records,
        Array.getElem?_eq_getElem hindex]
      have hcomment := h.withComment index (String.ofList (Text.trimStart parts.2))
      rw [h.records, h.last] at hcomment
      exact follows_ok hcomment

end Lines

theorem step_follows (h : Points s t) (line : List Char) :
    Follows stopOf Points (step s line) (Format.Enigma.step t line) := by
  unfold step Format.Enigma.step
  rw [content_eq, Checked.ok_bind]
  have hwords : (Text.words (Format.Enigma.content line)).filter
      (fun word => !"ACC:".toList.isPrefixOf word) = contentWords line := rfl
  simp only [hwords]
  cases contentWords line with
  | nil => exact follows_ok h
  | cons kind words =>
    simp only [List.isEmpty_cons, Bool.false_eq_true, if_false, Checked.at_zero, Checked.ok_bind]
    generalize String.ofList kind = k
    split
    · exact classLine_follows h _ kind words
    · exact memberLine_follows h _ "FIELD" kind words
    · exact memberLine_follows h _ "METHOD" kind words
    · exact argumentLine_follows h _ kind words
    · exact commentLine_follows h _ line
    · rename_i hclass hfield hmethod harg hcomment
      have hfail : Follows stopOf Points (fail (.unknownEntry k)) (.error (.unknownEntry k)) :=
        follows_fail rfl
      simpa only [hclass, hfield, hmethod, harg, hcomment] using hfail

/-- What ends the reading of a text. -/
def stopLine (e : LineFault) : Stop LineFault := (stopOf e.fault).map (LineFault.mk e.line)

theorem parse_follows (text : List Char) :
    Follows stopLine Eq (parse text) (Format.Enigma.parse text) := by
  have hlines : Follows stopLine Points (foldLines step .start (Text.numberedLines text))
      (Format.foldLines Format.Enigma.step .start (Text.numberedLines text)) :=
    foldLines_follows (fun _ _ => rfl) (fun _ _ line h => step_follows h line) points_start _
  unfold parse Format.Enigma.parse
  refine hlines.bind fun s t h => ?_
  rw [h.records]
  exact follows_ok rfl

section Splits

/-- A comment that would begin inside a character: the first word of its line that is no access
modifier is `COMMENT`, there is an element for it, and the line has no offset between characters
behind its first seven bytes, blanks apart. -/
def SplitsComment (t : Format.Enigma.State) (line : List Char) : Prop :=
  (contentWords line).head? = some "COMMENT".toList ∧
    (∃ index depth, t.last = some (index, depth) ∧ depth < Text.depth line) ∧
    Text.splitAt? "COMMENT".utf8ByteSize (Text.trimStart line) = none

/-- The lines of a text are read up to one with a comment that would begin inside a character. -/
def SplitsCharacter (text : List Char) : Prop :=
  ∃ before number line after t, Text.numberedLines text = before ++ (number, line) :: after ∧
    Format.foldLines Format.Enigma.step .start before = .ok t ∧ SplitsComment t line

theorem commentLine_eq_iff {depth : Nat} {line : List Char} :
    Format.Enigma.commentLine t depth line = .error .commentInsideCharacter ↔
      (∃ index depth', t.last = some (index, depth') ∧ depth' < depth) ∧
        Text.splitAt? "COMMENT".utf8ByteSize (Text.trimStart line) = none := by
  unfold Format.Enigma.commentLine
  rw [dropBytes?_eq]
  cases hlast : t.last with
  | none => simp
  | some last =>
    obtain ⟨index, depth'⟩ := last
    by_cases hdepth : depth' < depth
    · cases Text.splitAt? "COMMENT".utf8ByteSize (Text.trimStart line) <;>
        simp [Option.filter_some, hdepth]
    · simp [Option.filter_some, hdepth]

theorem classLine_ne (depth : Nat) (simple : String) (readable : Option String) :
    Format.Enigma.classLine t depth simple readable ≠ .error .commentInsideCharacter := by
  unfold Format.Enigma.classLine
  split <;> simp

theorem memberLine_ne (depth : Nat) (kind : String) (words : List (List Char)) :
    Format.Enigma.memberLine t depth kind words ≠ .error .commentInsideCharacter := by
  unfold Format.Enigma.memberLine
  split
  · simp
  · split
    · simp
    · dsimp only
      split <;> simp

theorem argumentLine_ne (depth : Nat) (words : List (List Char)) :
    Format.Enigma.argumentLine t depth words ≠ .error .commentInsideCharacter := by
  unfold Format.Enigma.argumentLine readIndex
  split
  · simp
  · split
    · rename_i word _
      cases Text.index? word <;> simp
    · simp

theorem step_eq_iff {line : List Char} :
    Format.Enigma.step t line = .error .commentInsideCharacter ↔ SplitsComment t line := by
  unfold Format.Enigma.step SplitsComment
  cases contentWords line with
  | nil => simp
  | cons kind words =>
    rw [List.head?_cons, Option.some.injEq]
    by_cases hkind : kind = "COMMENT".toList
    · subst hkind
      simp only [String.ofList_toList, true_and]
      exact commentLine_eq_iff
    · have hname : String.ofList kind ≠ "COMMENT" := by
        rintro h
        rw [← String.toList_ofList (l := kind), h] at hkind
        exact hkind rfl
      refine iff_of_false ?_ fun h => hkind h.1
      dsimp only
      split
      · split
        · exact classLine_ne _ _ _
        · exact classLine_ne _ _ _
        · simp
      · exact memberLine_ne _ _ _
      · exact memberLine_ne _ _ _
      · exact argumentLine_ne _ _
      · contradiction
      · simp

theorem splitsCharacter_iff {text : List Char} :
    SplitsCharacter text ↔
      ∃ number, Format.Enigma.parse text = .error ⟨number, .commentInsideCharacter⟩ := by
  have hparse : ∀ e, Format.Enigma.parse text = .error e ↔
      Format.foldLines Format.Enigma.step .start (Text.numberedLines text) = .error e := by
    intro e
    unfold Format.Enigma.parse
    cases Format.foldLines Format.Enigma.step .start (Text.numberedLines text) with
    | error e' =>
      exact ⟨fun h => congrArg _ (Except.error.inj h), fun h => congrArg _ (Except.error.inj h)⟩
    | ok last => exact iff_of_false nofun nofun
  simp only [SplitsCharacter, hparse, foldLines_eq_error_iff, step_eq_iff]
  exact ⟨fun ⟨before, number, h⟩ => ⟨number, before, h⟩, fun ⟨number, before, h⟩ =>
    ⟨before, number, h⟩⟩

/-- A text in the nested class format leaves the bounds just by such a comment, and is read like
without offsets and indices otherwise. -/
theorem parse_cases (text : List Char) :
    (SplitsCharacter text ∧ parse text = .error (.crash .cut)) ∨
      (¬ SplitsCharacter text ∧ parse text = lift (Format.Enigma.parse text)) := by
  have hfollows := parse_follows text
  rw [splitsCharacter_iff]
  cases hplain : Format.Enigma.parse text with
  | ok source =>
    rw [hplain] at hfollows
    obtain ⟨_, hparse, rfl⟩ := hfollows
    exact .inr ⟨nofun, hparse⟩
  | error e =>
    rw [hplain] at hfollows
    obtain ⟨number, fault⟩ := e
    by_cases hfault : fault = .commentInsideCharacter
    · subst hfault
      exact .inl ⟨⟨number, rfl⟩, hfollows⟩
    · refine .inr ⟨?_, ?_⟩
      · rintro ⟨_, h⟩
        exact hfault (LineFault.mk.inj (Except.error.inj h)).2
      · rw [show parse text = _ from hfollows]
        cases fault
        case commentInsideCharacter => contradiction
        all_goals rfl

end Splits

section Modifiers

theorem exists_content_append (line : List Char) :
    ∃ remark, Format.Enigma.content line ++ remark = line := by
  unfold Format.Enigma.content
  split
  · exact ⟨[], List.append_nil line⟩
  · exact List.takeWhile_prefix _

/-- A line whose comment would begin inside a character begins with an access modifier. -/
theorem SplitsComment.startsWithModifier {line : List Char} (h : SplitsComment t line) :
    "ACC:".toList <+: Text.trimStart line := by
  obtain ⟨hhead, -, hsplit⟩ := h
  obtain ⟨remark, hline⟩ := exists_content_append line
  rw [contentWords] at hhead
  cases hwords : Text.words (Format.Enigma.content line) with
  | nil =>
    rw [hwords] at hhead
    cases hhead
  | cons word words =>
    obtain ⟨rest, hrest⟩ := Text.exists_trimStart_eq_append hwords
    have hword : word ++ rest ≠ [] := by
      have := (Text.mem_words (hwords ▸ List.mem_cons_self)).1.1
      simp [this]
    have htrim : Text.trimStart line = word ++ (rest ++ remark) := by
      rw [← List.append_assoc, ← hrest, ← Text.trimStart_append (hrest ▸ hword), hline]
    by_cases hmodifier : "ACC:".toList.isPrefixOf word = true
    · rw [htrim]
      exact (List.isPrefixOf_iff_prefix.1 hmodifier).trans (List.prefix_append word _)
    · -- the comment is the first word of its line, so its text begins behind it
      have hplain : (!"ACC:".toList.isPrefixOf word) = true := by
        rw [Bool.eq_false_iff.2 hmodifier]
        rfl
      rw [hwords, List.filter_cons_of_pos (p := fun word => !"ACC:".toList.isPrefixOf word) hplain,
        List.head?_cons] at hhead
      rw [htrim, Option.some.inj hhead] at hsplit
      cases (Text.splitAt?_append "COMMENT".toList (rest ++ remark)).symm.trans hsplit

/-- A text without a line that begins with an access modifier stays within the bounds. -/
theorem not_splitsCharacter {text : List Char}
    (h : ∀ line ∈ Text.lines text, ¬ "ACC:".toList <+: Text.trimStart line) :
    ¬ SplitsCharacter text := by
  rintro ⟨before, number, line, after, t, hlines, -, hsplits⟩
  have hmem : (number, line) ∈ Text.numberedLines text := by simp [hlines]
  obtain ⟨item, hitem, hpair⟩ := List.mem_map.1 hmem
  obtain ⟨-, rfl⟩ := Prod.mk.inj hpair
  exact h item.1 (List.fst_mem_of_mem_zipIdx hitem) hsplits.startsWithModifier

end Modifiers

end JarRemap.Format.Bytewise.Enigma
