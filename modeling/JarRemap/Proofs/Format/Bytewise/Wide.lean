import JarRemap.Proofs.Format.Bytewise.Flat
import JarRemap.Format.Bytewise.Nested

/-!
# The nested searge format is read within bounds

The index kept for the parameters of a method is that of a record of the method, whose first name is
the name of the method; no line changes a record.
-/

namespace JarRemap.Format.Bytewise.Tsrg.Wide

open Checked (lift)
open JarRemap.Format.Tsrg.Wide (Method)

variable {n : Nat} {s : State} {t : Format.Tsrg.Wide.State}

/-- The record of a method, with its name in the first namespace. -/
def Describes (r : Record) (m : Method) : Prop :=
  r.element = .method m.owner m.desc ∧ ∃ first names, r.names = first :: names ∧ first.getD "" = m.name

/-- A state keeps the index of the record of the method that another one keeps. -/
structure Points (s : State) (t : Format.Tsrg.Wide.State) : Prop where
  owner : s.owner = t.owner
  none_iff : s.method = none ↔ t.method = none
  method : ∀ index m, s.method = some index → t.method = some m →
    ∃ r, s.records[index]? = some r ∧ Describes r m

/-- What a step does is what the plain one does: the states go on alike, and the new records are
appended, each with one name for each namespace. -/
def Appends (width : Nat) (s s' : State) (next : Format.Tsrg.Wide.State × List Record) : Prop :=
  Points s' next.1 ∧ s'.records.toList = s.records.toList ++ next.2.map (Record.fit width)

theorem getD_nameOrNone (word : List Char) : (nameOrNone word).getD "" = String.ofList word := by
  cases word <;> rfl

theorem Describes.fit {r : Record} {m : Method} (h : Describes r m) :
    Describes (r.fit (n + 1)) m := by
  obtain ⟨helement, first, names, hnames, hfirst⟩ := h
  have hfit : (r.fit (n + 1)).names =
      first :: (names.take n ++ List.replicate (n + 1 - r.names.length) none) := by
    rw [Record.fit, hnames, List.take_succ_cons, List.cons_append]
  exact ⟨helement, first, _, hfit, hfirst⟩

theorem describes_methodRecord (owner : String) (desc old : List Char) (names : List (List Char)) :
    Describes (methodRecord owner (some desc) (old :: names))
      ⟨owner, String.ofList old, some (String.ofList desc)⟩ :=
  ⟨rfl, _, _, rfl, getD_nameOrNone old⟩

theorem Points.push (h : Points s t) (width : Nat) (r : Record) : Points (s.push width r) t where
  owner := h.owner
  none_iff := h.none_iff
  method index m hs ht := by
    obtain ⟨before, hbefore, hdescribes⟩ := h.method index m hs ht
    exact ⟨before, getElem?_push_of_eq_some hbefore _, hdescribes⟩

theorem points_none (s : State) (owner : Option String) :
    Points { s with owner := owner, method := none } ⟨owner, none⟩ :=
  ⟨rfl, ⟨fun _ => rfl, fun _ => rfl⟩, fun _ _ h => by cases h⟩

theorem typeLine_follows (s : State) (word : List Char) (words : List (List Char)) :
    Follows Stop.error (Appends (n + 1) s) (typeLine (n + 1) s (word :: words))
      (Format.Tsrg.Wide.typeLine (n + 1) (word :: words)) := by
  unfold typeLine Format.Tsrg.Wide.typeLine
  rw [isPackage_eq, Checked.ok_bind]
  cases Format.Tsrg.isPackage (word :: words) with
  | true => exact follows_ok ⟨points_none s none, by simp⟩
  | false =>
    by_cases hlength : (word :: words).length ≠ n + 1
    · simp only [Bool.false_eq_true, if_false, if_pos hlength]
      exact follows_error _
    · simp only [Bool.false_eq_true, if_false, if_neg hlength]
      exact follows_ok ⟨points_none (s.push (n + 1) _) _, by simp [State.push]⟩

theorem memberLine_follows (s : State) (owner : String) (howner : s.owner = some owner)
    (word : List Char) (words : List (List Char)) :
    Follows Stop.error (Appends (n + 1) s) (memberLine (n + 1) s owner (word :: words))
      (Format.Tsrg.Wide.memberLine (n + 1) owner (word :: words)) := by
  have hpoints : Points { s with method := none } ⟨some owner, none⟩ := by
    rw [← howner]
    exact points_none s s.owner
  unfold memberLine Format.Tsrg.Wide.memberLine
  dsimp only
  by_cases hfield : (word :: words).length = n + 1
  · rw [if_pos hfield, if_pos hfield]
    exact follows_ok ⟨hpoints.push _ _, by simp [State.push]⟩
  rw [if_neg hfield, if_neg hfield]
  by_cases hmember : (word :: words).length = n + 1 + 1
  · rw [if_pos hmember, if_pos hmember]
    obtain ⟨desc, names, rfl⟩ :=
      List.exists_cons_of_length_eq_add_one (Nat.succ.inj hmember)
    simp only [Checked.at_zero, Checked.at_succ, Checked.from_succ, Checked.from_zero,
      Checked.ok_bind]
    by_cases hdesc : desc.head? = some '('
    · rw [if_pos hdesc, if_pos hdesc]
      -- the record that was pushed last is that of the method
      simp only [State.push, Checked.sub_size_push, Checked.ok_bind]
      refine follows_ok ⟨⟨howner, by simp, ?_⟩, by simp⟩
      intro index m hindex hm
      obtain rfl := Option.some.inj hindex
      obtain rfl := Option.some.inj hm
      exact ⟨_, Array.getElem?_push_size, (describes_methodRecord owner desc word names).fit⟩
    · rw [if_neg hdesc, if_neg hdesc]
      exact follows_ok ⟨hpoints.push _ _, by simp [State.push]⟩
  · rw [if_neg hmember, if_neg hmember]
    exact follows_error _

theorem parameterLine_follows (h : Points s t) (word : List Char) (words : List (List Char)) :
    Follows Stop.error (Appends (n + 1) s) (parameterLine (n + 1) s (word :: words))
      (Format.Tsrg.Wide.parameterLine (n + 1) t (word :: words)) := by
  unfold parameterLine Format.Tsrg.Wide.parameterLine
  by_cases hstatic : word :: words = ["static".toList]
  · rw [if_pos hstatic, if_pos hstatic]
    exact follows_ok ⟨h, by simp⟩
  rw [if_neg hstatic, if_neg hstatic]
  cases hmethod : t.method with
  | none =>
    rw [h.none_iff.2 hmethod]
    exact follows_error _
  | some m =>
    obtain ⟨index, hindex⟩ : ∃ index, s.method = some index := by
      rw [← Option.ne_none_iff_exists', ne_eq, h.none_iff, hmethod]
      exact Option.some_ne_none m
    obtain ⟨r, hr, helement, first, names, hnames, hfirst⟩ := h.method index m hindex hmethod
    simp only [hindex, hr, helement, hnames, Checked.need_some, Checked.at_zero, Checked.ok_bind]
    by_cases hlength : (word :: words).length ≠ n + 1 + 1
    · rw [if_pos hlength, if_pos hlength]
      exact follows_error _
    · rw [if_neg hlength, if_neg hlength]
      refine (follows_lift (R := Eq) fun _ _ => rfl).bind ?_
      rintro index _ rfl
      rw [← hfirst]
      exact follows_ok ⟨h.push _ _, by simp [State.push]⟩

theorem step_follows (h : Points s t) (line : List Char) :
    Follows Stop.error (Appends (n + 1) s) (step (n + 1) s line)
      (Format.Tsrg.Wide.step (n + 1) t line) := by
  unfold step Format.Tsrg.Wide.step
  by_cases hremark : isRemark line = true
  · rw [if_pos hremark, if_pos hremark]
    exact follows_ok ⟨h, by simp⟩
  rw [if_neg hremark, if_neg hremark]
  obtain ⟨word, words, hwords⟩ := exists_words hremark
  rw [hwords]
  dsimp only
  rcases Text.depth line with _ | _ | _ | depth
  · exact typeLine_follows s word words
  · cases howner : t.owner with
    | none =>
      rw [h.owner.trans howner]
      exact follows_error _
    | some owner =>
      rw [h.owner.trans howner]
      exact memberLine_follows s owner (h.owner.trans howner) word words
  · exact parameterLine_follows h word words
  · exact follows_error _

/-- The records of a whole text are appended to those read before it. -/
theorem foldLines_follows_readLines (h : Points s t) (lines : List (Nat × List Char)) :
    Follows Stop.error
      (fun s' records => s'.records.toList = s.records.toList ++ records.map (Record.fit (n + 1)))
      (foldLines (step (n + 1)) s lines)
      (Format.readLines (Format.Tsrg.Wide.step (n + 1)) t lines) := by
  induction lines generalizing s t with
  | nil => exact follows_ok (by simp)
  | cons item lines ih =>
    obtain ⟨number, line⟩ := item
    have hline : Follows Stop.error (Appends (n + 1) s) (onLine number (step (n + 1) s line))
        ((Format.Tsrg.Wide.step (n + 1) t line).mapError (LineFault.mk number)) :=
      (step_follows h line).mapError fun _ => rfl
    refine hline.bind ?_
    rintro s' ⟨t', records⟩ ⟨hpoints, hrecords⟩
    have hrest := ih hpoints
    dsimp only at hrest hrecords ⊢
    cases hmore : Format.readLines (Format.Tsrg.Wide.step (n + 1)) t' lines with
    | error e =>
      rw [hmore] at hrest
      exact hrest
    | ok more =>
      rw [hmore] at hrest
      obtain ⟨last, hlast, happend⟩ := hrest
      exact ⟨last, hlast, by simp only [happend, hrecords, List.map_append, List.append_assoc]⟩

theorem parse_eq (text : List Char) : parse text = lift (Format.Tsrg.Wide.parse text) := by
  unfold parse Format.Tsrg.Wide.parse
  simp only [onLine_lift, Checked.lift_bind]
  congr 1
  funext (key, others)
  have hfollows := foldLines_follows_readLines (n := others.length) (points_none {} none)
    (Text.numberedLines text).tail
  change (foldLines (step (others.length + 1)) {} _ >>= _) =
    (lift (Format.readLines (Format.Tsrg.Wide.step (others.length + 1)) {} _) >>= _)
  cases hplain : Format.readLines (Format.Tsrg.Wide.step (others.length + 1)) {}
      (Text.numberedLines text).tail with
  | error e =>
    rw [hplain] at hfollows
    rw [show foldLines _ _ _ = _ from hfollows]
    rfl
  | ok records =>
    rw [hplain] at hfollows
    obtain ⟨last, hlast, hrecords⟩ := hfollows
    rw [hlast, Checked.ok_bind, hrecords]
    rfl

end JarRemap.Format.Bytewise.Tsrg.Wide
