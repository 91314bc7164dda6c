import JarRemap.Proofs.Resource.AccessWidener

/-!
# Headers of access wideners

A file that is accepted is headed by the namespace it is expected in, and what it becomes bears a
header with the new namespace: behind the lines without words that stood before it, and with the
remark it had. If the name of the new namespace can stand as a word, that header is read again.
-/

namespace JarRemap

namespace Text

theorem feed_not_mem_linesFrom {line text t : List Char} (hline : '\n' ∉ line)
    (ht : t ∈ linesFrom line text) : '\n' ∉ t := by
  induction text generalizing line with
  | nil =>
    simp only [linesFrom] at ht
    split at ht
    · cases ht
    · rw [List.mem_singleton.1 ht, List.mem_reverse]
      exact hline
  | cons c text ih =>
    simp only [linesFrom] at ht
    split at ht
    · rcases List.mem_cons.1 ht with rfl | ht
      · rw [List.mem_reverse]
        rcases dropReturn_eq line with h | h
        · rwa [h]
        · rw [h]
          exact fun hmem => hline (List.mem_of_mem_tail hmem)
      · exact ih List.not_mem_nil ht
    · next hc =>
      refine ih ?_ ht
      rw [List.mem_cons, not_or]
      exact ⟨fun hfeed => hc hfeed.symm, hline⟩

end Text

open Text

namespace Resource

namespace Line

variable {n : Nat} {t : List Char}

/-- A carriage return at the end of a line is no part of a word. -/
theorem words_append_return (n : Nat) (t : List Char) :
    (ofText n (t ++ ['\r'])).words = (ofText n t).words := by
  rcases remark_cases n t with ⟨hsign, hof⟩ | ⟨before, rest, rfl, hsign, hof⟩
  · rw [hof, ofText_of_not_mem (by simpa using hsign)]
    exact (words_append_blank (by decide) t []).trans (List.append_nil _)
  · rw [hof, List.append_assoc, List.cons_append, ofText_append hsign]

theorem words_dropReturn (n : Nat) (t : List Char) :
    (ofText n (dropReturn t.reverse).reverse).words = (ofText n t).words := by
  rcases hlast : t.reverse with _ | ⟨c, front⟩
  · rw [List.reverse_eq_nil_iff.1 hlast]
    rfl
  · have ht : t = front.reverse ++ [c] := by
      rw [← List.reverse_reverse t, hlast, List.reverse_cons]
    unfold dropReturn
    split
    · next heq =>
      cases heq
      rw [ht, words_append_return]
    · rw [ht, List.reverse_cons]

/-- Lines hold no line feed. -/
theorem exists_of_mem_all {text : List Char} {l : Line} (h : l ∈ all text) :
    ∃ n t, '\n' ∉ t ∧ l = ofText n t := by
  obtain ⟨⟨n, t⟩, hitem, rfl⟩ := List.mem_map.1 h
  refine ⟨n, t, ?_, rfl⟩
  have ht : t ∈ lines text := by
    rw [← map_snd_numberedLines]
    exact List.mem_map_of_mem hitem
  exact feed_not_mem_linesFrom List.not_mem_nil ht

end Line

namespace AccessWidener

/-- The first words of a text are a header that names a namespace by a token. -/
def HeadedBy (token : String) (text : List Char) : Prop :=
  ∃ version entries,
    contents (Line.all text) = ["accessWidener".toList, version, token.toList] :: entries

/-- A text in which, behind lines without words, a header with a token is written, whatever
characters the token has. At most a remark stands behind the token. -/
def BearsHeader (token : String) (text : List Char) : Prop :=
  ∃ (blanks : List (List Char)) (version remark rest : List Char),
    text = blanks.flatMap (fun t => t ++ ['\n']) ++
      (joined ["accessWidener".toList, version, token.toList] ++ remark ++ '\n' :: rest) ∧
    (∀ t ∈ blanks, '\n' ∉ t ∧ (Line.ofText 0 t).words = []) ∧ IsToken version ∧
    (remark = [] ∨ ∃ r, '\n' ∉ r ∧ remark = '\t' :: '#' :: r)

theorem contents_all (text : List Char) :
    contents (Line.all text) = ((Text.lines text).map fun t => (Line.ofText 0 t).words).filter
      fun words => !words.isEmpty := by
  rw [contents, Line.all, ← map_snd_numberedLines, List.map_map, List.map_map]
  rfl

/-- The words of the first line come first. -/
theorem contents_all_cons {t : List Char} (h : '\n' ∉ t) (rest : List Char) :
    contents (Line.all (t ++ '\n' :: rest)) =
      contents [Line.ofText 0 t] ++ contents (Line.all rest) := by
  rw [contents_all, contents_all, Text.lines, linesFrom_append h, List.append_nil, List.map_cons,
    Line.words_dropReturn, ← List.singleton_append, List.filter_append]
  rfl

theorem contents_all_blanks {blanks : List (List Char)}
    (h : ∀ t ∈ blanks, '\n' ∉ t ∧ (Line.ofText 0 t).words = []) (rest : List Char) :
    contents (Line.all (blanks.flatMap (fun t => t ++ ['\n']) ++ rest)) =
      contents (Line.all rest) := by
  induction blanks with
  | nil => rfl
  | cons t blanks ih =>
    obtain ⟨⟨hfeed, hwords⟩, hblanks⟩ := List.forall_mem_cons.1 h
    rw [List.flatMap_cons, List.append_assoc, List.append_assoc, List.singleton_append,
      contents_all_cons hfeed, ih hblanks, contents_cons_of_eq_nil hwords]
    rfl

/-- A header whose token can stand as a word is read as it is written. -/
theorem BearsHeader.headedBy {token : String} {text : List Char} (h : BearsHeader token text)
    (htoken : IsToken token.toList) : HeadedBy token text := by
  obtain ⟨blanks, version, remark, rest, rfl, hblanks, hversion, hremark⟩ := h
  refine ⟨version, contents (Line.all rest), ?_⟩
  generalize hws : ["accessWidener".toList, version, token.toList] = ws
  have htokens : ∀ w ∈ ws, IsToken w := by
    rw [← hws]
    simpa using ⟨by decide, hversion, htoken⟩
  have hwords : words (joined ws) = ws :=
    words_intercalate (c := '\t') (by decide) fun w hw => (htokens w hw).1
  have hsign : '#' ∉ joined ws :=
    not_mem_intercalate (by decide) fun w hw => (htokens w hw).2
  have hfeed : '\n' ∉ joined ws := by
    refine not_mem_intercalate (by decide) fun w hw hmem => ?_
    exact absurd ((htokens w hw).1.2 '\n' hmem) (by decide)
  have hne : ws ≠ [] := by rw [← hws]; exact List.cons_ne_nil _ _
  rw [contents_all_blanks hblanks]
  rcases hremark with rfl | ⟨r, hr, rfl⟩
  · have hline : (Line.ofText 0 (joined ws)).words = ws := by
      rw [Line.ofText_of_not_mem hsign]
      exact hwords
    rw [List.append_nil, contents_all_cons hfeed,
      contents_cons_of_ne_nil (hline.trans_ne hne), hline]
    rfl
  · have hline : (Line.ofText 0 (joined ws ++ '\t' :: '#' :: r)).words = ws := by
      rw [← List.singleton_append, ← List.append_assoc,
        Line.ofText_append (by simpa using hsign)]
      change words (joined ws ++ ['\t']) = ws
      rw [words_append_blank (by decide), hwords]
      exact List.append_nil ws
    rw [contents_all_cons (by simp [hfeed, hr]), contents_cons_of_ne_nil (hline.trans_ne hne),
      hline]
    rfl

section Renamed

variable {w : AccessWidener} {file : String} {d : Dictionary}

/-- The remark of a line stands behind its first number sign. -/
theorem remark_of_ofText {n : Nat} {t : List Char} (h : '\n' ∉ t) :
    (Line.ofText n t).remark.elim [] ('\t' :: ·) = [] ∨
      ∃ r, '\n' ∉ r ∧ (Line.ofText n t).remark.elim [] ('\t' :: ·) = '\t' :: '#' :: r := by
  rcases Line.remark_cases n t with ⟨-, hof⟩ | ⟨before, r, rfl, -, hof⟩
  · exact .inl (by rw [hof]; rfl)
  · refine .inr ⟨r, ?_, by rw [hof]; rfl⟩
    simp only [List.mem_append, List.mem_cons, not_or] at h
    exact h.2.2

/-- Renamed lines begin as the lines did, up to the header, which names the new namespace. -/
theorem bearsHeader_of_renames {ls ls' : List Line} (h : Renames w d false ls ls')
    (hls : ∀ l ∈ ls, ∃ n t, '\n' ∉ t ∧ l = Line.ofText n t) :
    BearsHeader w.target (ls'.flatMap Line.keep) := by
  generalize hheaded : false = headed at h
  induction h with
  | nil => cases hheaded
  | @blank headed l ls ls' hwords _ ih =>
    obtain ⟨⟨n, t, hfeed, rfl⟩, hrest⟩ := List.forall_mem_cons.1 hls
    obtain ⟨blanks, version, remark, rest, htext, hblanks, hversion, hremark⟩ := ih hrest hheaded
    refine ⟨t :: blanks, version, remark, rest, ?_, ?_, hversion, hremark⟩
    · have hkeep : (Line.ofText n t).keep = t ++ ['\n'] := rfl
      rw [List.flatMap_cons, List.flatMap_cons, htext, hkeep]
      simp only [List.append_assoc]
    · exact List.forall_mem_cons.2 ⟨⟨hfeed, hwords⟩, hblanks⟩
  | @header version l ls ls' hwords _ _ =>
    obtain ⟨⟨n, t, hfeed, rfl⟩, -⟩ := List.forall_mem_cons.1 hls
    refine ⟨[], version, _, ls'.flatMap Line.keep, ?_, List.forall_mem_nil _, ?_,
      remark_of_ofText (n := n) hfeed⟩
    · rw [List.flatMap_cons, Line.keep, List.append_assoc]
      rfl
    · have hversion : version ∈ (Line.ofText n t).words := by
        rw [hwords]
        exact List.mem_cons_of_mem _ List.mem_cons_self
      exact Line.isToken_of_mem_words hversion
  | entry => cases hheaded

/-- What is renamed was headed by the namespace it is expected in, and bears a header with the new
one. -/
theorem headed_of_transform {bytes out : List UInt8} (h : transform w file bytes d = .ok out) :
    ∃ text renamed, decode? bytes = some text ∧ out = encode renamed ∧
      HeadedBy w.source text ∧ BearsHeader w.target renamed := by
  unfold transform at h
  split at h
  · cases h
  · next text htext =>
    obtain ⟨renamed, hlines, rfl⟩ := map_eq_ok_iff.1 h
    obtain ⟨ls', hls'⟩ := exists_renames hlines
    obtain ⟨version, entries, hcontents, -⟩ := exists_renames_false_iff.1 ⟨ls', hls'⟩
    refine ⟨text, renamed, htext, rfl, ⟨version, entries, hcontents⟩, ?_⟩
    rw [lines_of_renames hls'] at hlines
    rw [← Except.ok.inj hlines]
    exact bearsHeader_of_renames hls' fun l hl => Line.exists_of_mem_all hl

end Renamed

end AccessWidener

end Resource

end JarRemap
