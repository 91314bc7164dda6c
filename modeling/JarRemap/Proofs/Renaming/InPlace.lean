import JarRemap.Proofs.Renaming.Patching

/-!
# Patching stays inside a table

Every part of a table is patched in step with copying it, so patching ends where copying ends. A
part that contains others is bounded by the bytes that are left when it begins: an annotation takes
the index of its type before its elements, a value its tag, and an attribute its name and its length
before its contents. The contents of an attribute are refused once they went beyond its end, so what
was accessed in a table that is not refused lies in all attributes around it.
-/

namespace JarRemap.Attributes.InPlace

section

variable (resolver : Resolver) (owner : String) {bound : Nat}

theorem agrees_renamedText (rename : String → Option String) :
    Agrees bound 2 Eq (renamedText rename) (Attributes.renamedText rename) := by
  refine agrees_indexes 1 fun start l hl => ?_
  obtain ⟨index, rfl⟩ := List.length_eq_one_iff.1 hl
  have hlast : AgreesFrom start [index] (bound - 2 * 1) Eq (renameAt start rename >>= pure)
      (Attributes.constants >>= fun cs => renamedIndex index rename >>= fun index' =>
        emitIndex index' >>= fun _ => pure (cs.utf8? index)) :=
    agreesFrom_renameAt_text fun _ => agreesFrom_pure rfl
  rwa [bind_pure] at hlast

theorem agrees_descriptor : Agrees bound 2 (fun _ _ => True) (descriptor resolver)
    (Attributes.descriptor resolver) :=
  (agrees_renamedText _).bind fun _ _ _ => agrees_pure trivial

theorem agrees_signature : Agrees bound 2 (fun _ _ => True) (signature resolver)
    (Attributes.signature resolver) :=
  (agrees_renamedText _).bind fun _ _ _ => agrees_pure trivial

theorem agrees_enumConstant : Agrees bound 4 (fun _ _ => True) (enumConstant resolver)
    (Attributes.enumConstant resolver) := by
  refine agrees_indexes 2 fun start l hl => ?_
  obtain ⟨type, name, rfl⟩ := List.length_eq_two.1 hl
  refine agreesFrom_renameAt_text fun cs => ?_
  cases (cs.utf8? type).bind fun desc => (Descriptor.className? desc).map (desc, ·) with
  | none => exact agreesFrom_emit_last fun _ => trivial
  | some found => exact agreesFrom_renameAt_last

/-- Annotations and the values of their elements, whichever holds the other. -/
theorem agrees_annotations (depth : Nat) :
    Agrees depth 0 (fun _ _ => True) (annotationEntry resolver depth)
        (Attributes.annotationEntry resolver depth) ∧
      Agrees depth 0 (fun _ _ => True) (elementValue resolver depth)
        (Attributes.elementValue resolver depth) := by
  induction depth with
  | zero => exact ⟨agrees_zero, agrees_zero⟩
  | succ depth ih =>
    obtain ⟨hentry, hvalue⟩ := ih
    constructor
    · rw [annotationEntry, Attributes.annotationEntry]
      refine (agrees_renamedText _).andThen fun desc _ hdesc => ?_
      rw [← hdesc]
      refine Agrees.listed ?_ 2
      exact (agrees_renamedText _).andThen fun _ _ _ => hvalue.mono (by omega) (Nat.le_refl _)
    · rw [elementValue, Attributes.elementValue]
      refine (agrees_number 1).andThen fun tag _ htag => ?_
      rw [← htag]
      generalize Char.ofNat tag = kind
      split
      case h_14 =>
        first
        | exact agrees_throw _
        | split <;> first | contradiction | exact agrees_throw _
      case h_10 => exact (agrees_enumConstant resolver).forget
      case h_11 => exact (agrees_descriptor resolver).forget
      case h_12 => exact hentry
      case h_13 =>
        exact hvalue.listed 2
      all_goals exact (agrees_skipped 2).forget

theorem agrees_typeAnnotationEntry {depth : Nat} (hbound : bound ≤ depth) :
    Agrees bound 0 (fun _ _ => True) (typeAnnotationEntry resolver depth)
      (Attributes.typeAnnotationEntry resolver depth) := by
  have hpath : ∀ {less}, less ≤ bound → Agrees less 0 (fun _ _ => True)
      (do
        let _ ← skip ((← number 1) * 2)
        annotationEntry resolver depth)
      (do
        copy ((← Attributes.number 1) * 2)
        Attributes.annotationEntry resolver depth) := by
    intro less hless
    refine (agrees_number 1).andThen fun count _ hcount => ?_
    rw [← hcount]
    refine (agrees_skip _).andThen fun _ _ _ => ?_
    exact (agrees_annotations resolver depth).1.mono (by omega) (Nat.le_refl _)
  refine (agrees_number 1).andThen fun target _ htarget => ?_
  rw [← htarget]
  have hskip : ∀ count {less}, less ≤ bound → Agrees less 0 (fun _ _ => True)
      (do
        let _ ← skip count
        let _ ← skip ((← number 1) * 2)
        annotationEntry resolver depth)
      (do
        copy count
        copy ((← Attributes.number 1) * 2)
        Attributes.annotationEntry resolver depth) :=
    fun count _ hless => (agrees_skip count).andThen fun _ _ _ => hpath (by omega)
  dsimp only
  refine agrees_ite (fun _ => hskip 1 (by omega)) fun _ => ?_
  refine agrees_ite (fun _ => hskip 2 (by omega)) fun _ => ?_
  refine agrees_ite (fun _ => hpath (by omega)) fun _ => ?_
  refine agrees_ite (fun _ => ?_) fun _ => ?_
  · refine (agrees_number 2).andThen fun count _ hcount => ?_
    rw [← hcount]
    exact hskip _ (by omega)
  refine agrees_ite (fun _ => hskip 3 (by omega)) fun _ => ?_
  exact (agrees_throw _).andThen (R := fun _ _ => True) fun _ _ _ => hpath (by omega)

theorem agrees_enclosingMethod : Agrees bound 4 (fun _ _ => True) (enclosingMethod resolver)
    (Attributes.enclosingMethod resolver) := by
  refine agrees_indexes 2 fun start l hl => ?_
  obtain ⟨declarer, method, rfl⟩ := List.length_eq_two.1 hl
  refine agreesFrom_indexAt [] rfl ?_
  refine agreesFrom_indexAt [declarer] rfl ?_
  refine agreesFrom_emit ?_
  by_cases hmethod : method = 0
  · rw [if_pos hmethod, if_pos hmethod]
    exact agreesFrom_emit_last fun _ => trivial
  · rw [if_neg hmethod, if_neg hmethod]
    refine agreesFrom_constants fun cs => agreesFrom_constants fun cs' => ?_
    rcases cs.className? declarer with _ | declarer
    · exact agreesFrom_emit_last fun _ => trivial
    · rcases cs'.nameAndType? method with _ | ⟨name, desc⟩
      · exact agreesFrom_emit_last fun _ => trivial
      · exact agreesFrom_appended_last

theorem agrees_innerClass : Agrees bound 8 (fun _ _ => True) (innerClass resolver)
    (Attributes.innerClass resolver) := by
  refine agrees_indexes 4 fun start l hl => ?_
  match l, hl with
  | [inner, outer, simple, flags], _ =>
    have hkept : ∀ {place}, AgreesFrom place [simple, flags] (bound - 2 * 4) (fun _ _ => True)
        (pure () : Patch Unit) (emitIndex simple >>= fun _ => emitIndex flags) :=
      agreesFrom_emit (agreesFrom_emit_last fun _ => trivial)
    refine agreesFrom_indexAt [inner, outer] rfl ?_
    by_cases hsimple : simple = 0
    · rw [if_pos hsimple]
      refine agreesFrom_emit (agreesFrom_emit (agreesFrom_constants_right fun cs => ?_))
      cases (cs.className? inner).bind resolver.newClass? with
      | none => exact hkept
      | some renamed =>
        dsimp only
        rw [if_pos hsimple]
        exact hkept
    · rw [if_neg hsimple]
      refine agreesFrom_indexAt [] rfl ?_
      refine agreesFrom_emit (agreesFrom_emit (agreesFrom_constants fun cs => ?_))
      cases (cs.className? inner).bind resolver.newClass? with
      | none => exact hkept
      | some renamed =>
        dsimp only
        rw [if_neg hsimple]
        exact agreesFrom_renameAt fun _ => agreesFrom_emit_last fun _ => trivial

theorem agrees_recordComponent : Agrees bound 4 (fun _ _ => True) (recordComponent resolver owner)
    (Attributes.recordComponent resolver owner) := by
  refine agrees_indexes 2 fun start l hl => ?_
  obtain ⟨name, type, rfl⟩ := List.length_eq_two.1 hl
  refine agreesFrom_indexAt [name] rfl ?_
  refine agreesFrom_constants fun cs => ?_
  cases cs.utf8? type with
  | none => exact agreesFrom_emit agreesFrom_renameAt_last
  | some desc => exact agreesFrom_renameAt fun _ => agreesFrom_renameAt_last

theorem agrees_localVariable {type : Patch Unit} {type' : Copy Unit}
    (h : Agrees (bound - 6) 0 (fun _ _ => True) type type') :
    Agrees bound 0 (fun _ _ => True) (localVariable type) (Attributes.localVariable type') :=
  (agrees_skip 6).andThen fun _ _ _ => h.andThen fun _ _ _ =>
    (agrees_skipped 2).forget

/-- The contents of an attribute are gone through inside of it: as long as they end before it does,
so does all that is accessed. -/
theorem within_of_agrees {S : State} {s : Attributes.State} {p : Patch Unit} {c : Copy Unit}
    (h : Agrees bound 0 (fun _ _ => True) p c) (hmatches : Matches S s [])
    (hbound : s.cursor.rest.length < bound) (stop : Nat) :
    (∃ S' s', within stop p S = (.ok (), S') ∧ c s = (.ok (), s') ∧ Matches S' s' [] ∧
      s'.cursor.rest.length ≤ s.cursor.rest.length ∧
      (S'.offset ≤ stop → Advances S { S' with offset := stop })) ∨
    ∃ e S' s', within stop p S = (.error (.fault e), S') ∧ c s = (.error e, s') ∧
      S'.pool = s'.pool := by
  have hinner : Matches { S with around := stop :: S.around } s [] :=
    ⟨hmatches.pool, hmatches.bytes, hmatches.offset, hmatches.place⟩
  have hrun := h _ s hinner hbound
  have hwithin : within stop p S =
      (p >>= fun _ => modify fun s => { s with around := s.around.tail })
        { S with around := stop :: S.around } := bind_of_ok rfl
  rcases hp : p { S with around := stop :: S.around } with ⟨r, S'⟩
  rcases hc : c s with ⟨r', s'⟩
  rw [hp, hc] at hrun
  cases hrun with
  | fault hpool => exact .inr ⟨_, S', s', hwithin.trans (bind_of_error hp), rfl, hpool⟩
  | ok _ hmatches' hadvances hrest =>
    refine .inl ⟨{ S' with around := S'.around.tail }, s', hwithin.trans (bind_of_ok hp), rfl,
      ⟨hmatches'.pool, hmatches'.bytes, hmatches'.offset, hmatches'.place⟩, hrest, fun hstop => ?_⟩
    obtain ⟨more, hmore, hinside⟩ := hadvances.accesses
    refine ⟨hadvances.length, drop_eq_of_le hadvances.behind hstop,
      congrArg List.tail hadvances.around, hadvances.offset.trans hstop, more, hmore,
      fun a ha => ?_⟩
    obtain ⟨hbefore, inner, haround, hends⟩ := hinside a ha
    refine ⟨hbefore.trans hstop, inner ++ [stop], by rw [haround, List.append_assoc]; rfl, ?_⟩
    intro last hlast
    rcases List.mem_append.1 hlast with hlast | hlast
    · exact hends last hlast
    · rw [List.mem_singleton.1 hlast]
      exact hbefore.trans hstop

/-- What is left of an attribute is copied where it is passed over. -/
theorem passed_of_matches {S : State} {s : Attributes.State} (h : Matches S s []) (count : Nat)
    (hcount : count ≤ s.cursor.rest.length) :
    ∃ s', copy count s = (.ok (), s') ∧ Matches { S with offset := S.offset + count } s' [] ∧
      s'.cursor.rest.length ≤ s.cursor.rest.length := by
  have hleft := h.length
  obtain ⟨S', s', hskip, htake, hmatches, -, -, hrest⟩ := skip_of_matches h hcount
  unfold skip at hskip
  dsimp only at hskip
  rw [if_pos (by omega)] at hskip
  cases hskip
  rw [← List.append_nil (s.cursor.rest.take count)] at hmatches
  obtain ⟨hpool, hbytes, hoffset, hplace⟩ := hmatches.emit
  refine ⟨_, bind_of_ok htake, ⟨hpool, hbytes, hoffset, hplace⟩, ?_⟩
  dsimp only
  rw [hrest, List.length_drop]
  exact Nat.sub_le _ _

theorem agrees_attributeEntry {contents : String → Patch Unit} {contents' : String → Copy Unit}
    (h : ∀ name, Agrees (bound - 6) 0 (fun _ _ => True) (contents name) (contents' name)) :
    Agrees bound 0 (fun _ _ => True) (attributeEntry contents)
      (Attributes.attributeEntry contents') := by
  unfold attributeEntry Attributes.attributeEntry
  refine (agrees_index fun bytes => ?_).forget
  refine (agrees_number 4).andThen fun length _ hlength => ?_
  rw [← hlength]
  intro S s hmatches hbound
  have hleft := hmatches.length
  have hoffset := hmatches.offset
  rw [bind_of_ok (show (get : Patch State) S = (.ok S, S) from rfl),
    bind_of_ok (show (get : Copy Attributes.State) s = (.ok s, s) from rfl)]
  dsimp only
  rw [bind_of_ok (show (get : Patch State) S = (.ok S, S) from rfl)]
  by_cases hshort : s.cursor.rest.length < length
  · rw [if_pos (by omega), if_pos hshort]
    exact .fault hmatches.pool
  rw [if_neg (by omega), if_neg hshort,
    bind_of_ok (show constants S = (.ok S.pool.constants, S) from rfl),
    bind_of_ok (show Attributes.constants s = (.ok s.pool.constants, s) from rfl), hmatches.pool]
  generalize (s.pool.constants.utf8? (natOfBytes bytes).toUInt16).getD "" = name
  obtain ⟨S', s', hpatch, hcopy, hmatches', hrest, hadvances⟩ | ⟨e, S', s', hpatch, hcopy, hpool⟩ :=
    within_of_agrees (h name) hmatches (by omega) (S.offset + length)
  · have hleft' := hmatches'.length
    have hoffset' := hmatches'.offset
    rw [bind_of_ok hpatch, bind_of_ok hcopy,
      bind_of_ok (show (get : Patch State) S' = (.ok S', S') from rfl),
      bind_of_ok (show (get : Copy Attributes.State) s' = (.ok s', s') from rfl)]
    by_cases hover : S.offset + length < S'.offset
    · rw [if_pos hover, if_pos (by omega)]
      exact .fault hmatches'.pool
    · have hadvances := hadvances (Nat.le_of_not_lt hover)
      have hlength' : S'.bytes.length = S.bytes.length := hadvances.length
      obtain ⟨s'', hlast, hmatches'', hrest'⟩ := passed_of_matches hmatches'
        (s.cursor.offset + length - s'.cursor.offset) (by omega)
      rw [if_neg hover, if_neg (by omega), hlast]
      have hstop :
          S'.offset + (s.cursor.offset + length - s'.cursor.offset) = S.offset + length := by
        omega
      rw [hstop] at hmatches''
      exact .ok trivial hmatches'' hadvances (by omega)
  · rw [bind_of_error hpatch, bind_of_error hcopy]
    exact .fault hpool

/-- The contents of an attribute, if the tables inside of it agree. -/
theorem agrees_contents {depth : Nat}
    (htable : Agrees depth 0 (fun _ _ => True) (table resolver owner depth)
      (Attributes.table resolver owner depth)) (name : String) :
    Agrees depth 0 (fun _ _ => True) (contents resolver owner (depth + 1) name)
      (Attributes.contents resolver owner (depth + 1) name) := by
  have hcode : Agrees depth 0 (fun _ _ => True)
      (do
        let _ ← skip 4
        let _ ← skip (← number 4)
        let _ ← skip ((← number 2) * 8)
        table resolver owner depth)
      (do
        copy 4
        copy (← Attributes.number 4)
        copy ((← Attributes.number 2) * 8)
        Attributes.table resolver owner depth) := by
    refine (agrees_skip 4).andThen fun _ _ _ => ?_
    refine (agrees_number 4).andThen fun length _ hlength => ?_
    rw [← hlength]
    refine (agrees_skip length).andThen fun _ _ _ => ?_
    refine (agrees_number 2).andThen fun handlers _ hhandlers => ?_
    rw [← hhandlers]
    exact (agrees_skip _).andThen fun _ _ _ => htable.mono (by omega) (Nat.le_refl _)
  have hentries := (agrees_annotations resolver depth).1.listed 2
  have htyped := (agrees_typeAnnotationEntry resolver (Nat.le_refl depth)).listed 2
  have hcomponents := ((agrees_recordComponent resolver owner).andThen
    fun _ _ _ => htable.mono (Nat.sub_le depth 4) (Nat.le_refl _)).listed 2
  unfold contents
  split
  case h_1 => exact (agrees_signature resolver).forget
  case h_2 => exact hcode
  case h_3 => exact (agrees_localVariable (agrees_descriptor resolver).forget).listed 2
  case h_4 => exact (agrees_localVariable (agrees_signature resolver).forget).listed 2
  case h_5 => exact hentries
  case h_6 => exact hentries
  case h_7 => exact hentries.listed 1
  case h_8 => exact hentries.listed 1
  case h_9 => exact htyped
  case h_10 => exact htyped
  case h_11 => exact (agrees_annotations resolver depth).2
  case h_12 => exact (agrees_enclosingMethod resolver).forget
  case h_13 => exact (agrees_innerClass resolver).forget.listed 2
  case h_14 => exact hcomponents
  case h_15 =>
    -- Copying chooses by the name as well, and the known names are out.
    have hcopy : Attributes.contents resolver owner (depth + 1) name = pure () := by
      unfold Attributes.contents
      split <;> first | contradiction | rfl
    rw [hcopy]
    exact agrees_pure trivial

/-- Tables and the contents of attributes, whichever holds the other. -/
theorem agrees_tables (depth : Nat) :
    Agrees depth 0 (fun _ _ => True) (table resolver owner depth)
        (Attributes.table resolver owner depth) ∧
      ∀ name, Agrees (depth - 1) 0 (fun _ _ => True) (contents resolver owner depth name)
        (Attributes.contents resolver owner depth name) := by
  induction depth with
  | zero => exact ⟨agrees_zero, fun _ => agrees_zero⟩
  | succ depth ih =>
    obtain ⟨htable, hcontents⟩ := ih
    refine ⟨?_, fun name => agrees_contents resolver owner htable name⟩
    rw [table, Attributes.table]
    refine (agrees_counted (agrees_attributeEntry fun name => ?_)).forget
    exact (hcontents name).mono (by omega) (Nat.le_refl _)

/-- Patching a table comes to its end for any bytes, in any pool, with a fault or without one, and
then to the same as copying. It never leaves the bytes and never runs out of the bound on the
nesting. Without a fault the bytes are as many as before: the copied table, and behind it what stood
behind the table. All that was accessed lies in the bytes, and in all attributes around it. -/
theorem rename_stays_inside (bytes : List UInt8) (pool : Pool) :
    (∃ e S, rename resolver owner bytes pool = (.error (.fault e), S) ∧
      Attributes.rename resolver owner bytes pool = (.error e, S.pool)) ∨
    ∃ table S, rename resolver owner bytes pool = (.ok (), S) ∧
      Attributes.rename resolver owner bytes pool = (.ok table, S.pool) ∧
      S.bytes.length = bytes.length ∧ S.bytes = table ++ bytes.drop table.length ∧
      ∀ a ∈ S.accesses, a.stop ≤ bytes.length ∧ ∀ stop ∈ a.around, a.stop ≤ stop := by
  have hmatches : Matches { pool, bytes } { pool, cursor := ⟨bytes, 0⟩ } [] := ⟨rfl, rfl, rfl, rfl⟩
  have hrun := (agrees_tables resolver owner (bytes.length + 1)).1
    _ _ hmatches (Nat.lt_succ_self _)
  unfold rename Attributes.rename
  rcases hpatch : table resolver owner (bytes.length + 1) { pool, bytes } with ⟨r, S⟩
  rcases hcopy : Attributes.table resolver owner (bytes.length + 1)
    { pool, cursor := ⟨bytes, 0⟩ } with ⟨r', s⟩
  rw [hpatch, hcopy] at hrun
  cases hrun with
  | fault hpool => exact .inl ⟨_, S, rfl, by rw [hpool]; rfl⟩
  | ok _ hend hadvances hrest =>
    have hlength : S.bytes.length = bytes.length := hadvances.length
    have hplace := hend.place
    have hinside := hend.length
    obtain ⟨more, hmore, haccesses⟩ := hadvances.accesses
    refine .inr ⟨s.copied.reverse, S, rfl, by rw [hend.pool]; rfl, hlength, ?_, ?_⟩
    · have hoffset : S.offset = s.copied.reverse.length := by
        rw [hend.offset, ← hplace, List.length_reverse]
        rfl
      rw [← hoffset, ← hadvances.behind, hend.behind, hend.bytes, List.append_nil]
    · intro a ha
      rw [hmore, List.append_nil] at ha
      obtain ⟨hbefore, inner, haround, hends⟩ := haccesses a ha
      rw [haround, List.append_nil]
      exact ⟨by omega, hends⟩

end

end JarRemap.Attributes.InPlace
