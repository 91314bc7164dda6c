import JarRemap.Proofs.Format.Bytewise.Reader
import JarRemap.Format.Bytewise.Proguard

/-!
# Obfuscation logs are read within bounds

Every offset was looked up in the text that is cut. The first bracket that closes stands behind the
first one that opens just if there is none before it; then the arguments stand between the two.
-/

namespace JarRemap.Format.Bytewise.Proguard

open Checked (lift fail)
open JarRemap.Format.Proguard (dropLineNumbers)

variable {ε : Type}

theorem dropTwo?_append (s : List Char) : dropTwo? (s ++ ['[', ']']) = some s := by
  have hlength : Text.byteLength (s ++ ['[', ']']) = Text.byteLength s + 2 := by
    rw [Text.byteLength_append]
    rfl
  rw [dropTwo?, hlength, if_neg (by omega), Nat.add_sub_cancel, Text.splitAt?_append]
  rfl

theorem elementType?_append (s : List Char) :
    elementType? (s ++ ['[', ']']) = (elementType? s).map fun type => (type.1, type.2 + 1) :=
  elementType?_of_dropTwo? (List.isSuffixOf_iff_suffix.2 (List.suffix_append s _))
    (dropTwo?_append s)

theorem elementType?_of_not_suffix {s : List Char} (h : ¬ ['[', ']'] <:+ s) :
    elementType? s = some (s, 0) := by
  have hsuffix : ¬ "[]".toList.isSuffixOf s = true := fun h' => h (List.isSuffixOf_iff_suffix.1 h')
  rw [elementType?, if_neg hsuffix]

/-- The descriptor is that of the elements behind a bracket for each dimension. -/
theorem elementType?_reverse (s : List Char) :
    ((elementType? s.reverse).map fun type =>
      List.replicate type.2 '[' ++ JavaType.baseDescriptor type.1) =
        some (JavaType.reversedDescriptor s) := by
  induction s using JavaType.reversedDescriptor.induct with
  | case1 rest ih =>
    have hpair : (']' :: '[' :: rest).reverse = rest.reverse ++ ['[', ']'] := by simp
    obtain ⟨type, htype, hdescriptor⟩ := Option.map_eq_some_iff.1 ih
    rw [hpair, elementType?_append, JavaType.reversedDescriptor, htype, ← hdescriptor]
    rfl
  | case2 s hs =>
    have hpair : ¬ ['[', ']'] <:+ s.reverse := by
      rintro ⟨rest, hrest⟩
      refine hs rest.reverse ?_
      rw [← List.reverse_reverse s, ← hrest]
      simp
    rw [elementType?_of_not_suffix hpair, JavaType.reversedDescriptor]
    · rfl
    · exact hs

theorem typeDescriptor_eq (s : List Char) :
    (typeDescriptor s : Checked ε _) = .ok (JavaType.descriptorOf s) := by
  have hreverse := elementType?_reverse (Text.trim s).reverse
  rw [List.reverse_reverse] at hreverse
  obtain ⟨type, htype, hdescriptor⟩ := Option.map_eq_some_iff.1 hreverse
  rw [typeDescriptor, htype, JavaType.descriptorOf, ← hdescriptor]
  rfl

theorem methodDescriptor_eq (arguments returned : List Char) :
    (methodDescriptor arguments returned : Checked ε _) =
      .ok (JavaType.methodDescriptorOf arguments returned) := by
  have hmap : ∀ types : List (List Char), (types.mapM typeDescriptor : Checked ε _) =
      .ok (types.map JavaType.descriptorOf) := by
    intro types
    rw [show (typeDescriptor : List Char → Checked ε _) = fun s => pure (JavaType.descriptorOf s)
      from funext typeDescriptor_eq, List.mapM_pure]
    rfl
  simp only [methodDescriptor, hmap, typeDescriptor_eq, Checked.ok_bind, Checked.pure_eq_ok,
    JavaType.methodDescriptorOf, List.flatMap_def]

/-- The first bracket that closes, looked up from the start of the name of a method. -/
theorem find?_closing (method behind : List Char) :
    (Text.find? (· = ')') (method ++ '(' :: behind)).filter (Text.byteLength method < ·) =
      if method.contains ')' then none
      else (Text.cut? ')' behind).map fun parts =>
        Text.byteLength method + 1 + Text.byteLength parts.1 := by
  rw [Text.find?_append]
  cases hclosed : method.contains ')' with
  | true =>
    have hany : method.any (fun c => decide (c = ')')) = true := by
      rw [List.any_eq_true]
      exact ⟨')', List.contains_iff_mem.1 hclosed, rfl⟩
    rw [if_pos hany, if_pos rfl, Option.filter_eq_none_iff]
    intro n hn
    have := Text.find?_lt hn
    simp
    omega
  | false =>
    have hany : ¬ method.any (fun c => decide (c = ')')) = true := by
      rw [List.any_eq_true]
      rintro ⟨c, hc, hclosing⟩
      rw [of_decide_eq_true hclosing] at hc
      rw [List.contains_iff_mem.2 hc] at hclosed
      cases hclosed
    rw [if_neg hany, if_neg Bool.false_ne_true, Text.find?_eq, Text.cut?, if_neg (by decide)]
    cases Text.cut? ')' behind with
    | none => rfl
    | some parts =>
      have hparen : '('.utf8Size = 1 := rfl
      simp [hparen]
      omega

theorem memberLine_eq (owner : String) (member obfuscated : List Char) :
    memberLine owner member obfuscated =
      lift (Format.Proguard.memberLine owner member obfuscated) := by
  unfold memberLine Format.Proguard.memberLine
  dsimp only
  cases hblank : Text.cut? ' ' (dropLineNumbers member) with
  | none => simp [Text.find?_eq, hblank]
  | some parts =>
    obtain ⟨javaType, rest⟩ := parts
    simp only [Text.find?_of_cut? hblank, Text.upTo_of_cut? hblank,
      Text.behind_of_cut? hblank rfl, Checked.ok_bind]
    generalize Text.trim rest = name
    cases hopening : Text.cut? '(' name with
    | none => simp [Text.find?_eq, hopening, typeDescriptor_eq]
    | some parts =>
      obtain ⟨method, rest⟩ := parts
      simp only [Text.find?_of_cut? hopening, Text.upTo_of_cut? hopening]
      rw [Text.cut?_eq_some hopening, find?_closing]
      cases hclosed : method.contains ')' with
      | true => simp
      | false =>
        cases hclosing : Text.cut? ')' rest with
        | none => simp
        | some parts =>
          obtain ⟨arguments, behind⟩ := parts
          simp only [Text.cut?_eq_some hclosing, Bool.false_eq_true, if_false, Option.map_some,
            Checked.ok_bind, Text.between_append (c := '(') rfl, methodDescriptor_eq]
          split <;> rfl

theorem step_eq (owner : Option String) (line : List Char) :
    step owner line = lift (Format.Proguard.step owner line) := by
  unfold step Format.Proguard.step
  by_cases hremark : isRemark line = true
  · rw [if_pos hremark, if_pos hremark]
    rfl
  rw [if_neg hremark, if_neg hremark]
  cases harrow : Text.cutAt? " -> ".toList line with
  | none =>
    rw [Text.findMark?_eq, harrow]
    rfl
  | some parts =>
    obtain ⟨left, right⟩ := parts
    have hline := Text.cutAt?_eq_some harrow
    have hbehind : (Text.behind line (Text.byteLength left + 4) : Checked Fault _) = .ok right := by
      rw [hline]
      exact Text.behind_mark left " -> ".toList right
    have hupTo : (Text.upTo line (Text.byteLength left) : Checked Fault _) = .ok left := by
      rw [hline, List.append_assoc, Text.upTo_append]
    simp only [Text.findMark?_eq, harrow, Option.map_some, hupTo, hbehind, Checked.ok_bind]
    split
    · cases owner with
      | none => rfl
      | some owner =>
        simp only [memberLine_eq, Checked.lift_map]
        cases lift (Format.Proguard.memberLine owner (Text.trim left) (Text.trim right)) <;> rfl
    · cases Text.stripEnd? [':'] (Text.trim right) <;> rfl

theorem parse_eq (text : List Char) : parse text = lift (Format.Proguard.parse text) := by
  simp only [parse, Format.Proguard.parse, Checked.lift_bind, readLines_eq step_eq]
  rfl

end JarRemap.Format.Bytewise.Proguard
