import JarRemap.Proofs.ClassFile.Interning
import JarRemap.Proofs.Renaming.Attributes
import JarRemap.Proofs.Renaming.Layout
import JarRemap.Proofs.Renaming.Symbol

/-!
# Tables are copied piece by piece

Copying a table reads it as it is laid out, writes all pieces as they were but the indexes that are
used, and writes for each of those an index of what its text or pair is renamed to. In a settled
pool that a table's symbols are left alone in, nothing is appended, so nothing is changed.
-/

namespace JarRemap.Attributes

/-- What a table is copied under: a resolver, the class, and the constants as they were read. -/
structure Frame where
  resolver : Resolver
  owner : String
  start : Constants

/-- A piece and what is written for it. -/
structure Copied where
  piece : Piece
  written : List UInt8

/-- The bytes that copied pieces were. -/
def taken (parts : List Copied) : List UInt8 := parts.flatMap fun part => part.piece.bytes

/-- The bytes that are written for pieces. -/
def written (parts : List Copied) : List UInt8 := parts.flatMap Copied.written

namespace Frame

variable (f : Frame)

/-- How texts are renamed that are used in a way, if all that this depends on is there. -/
def renaming? : Use → Option (String → Option String)
  | .descriptor => some fun desc => some (f.resolver.newDescriptor desc)
  | .signature => some f.resolver.newSignature?
  | .enumConstant type => (f.start.utf8? type).map fun desc name =>
      (Descriptor.className? desc).bind fun declarer =>
        f.resolver.newField? declarer name (some desc)
  | .element type => (f.start.utf8? type).map fun desc name =>
      (Descriptor.className? desc).bind fun type => f.resolver.newMethodNamed? type name
  | .simpleName inner => (f.start.className? inner).map fun inner _ =>
      (f.resolver.newClass? inner).map simpleName
  | .component type => (f.start.utf8? type).map fun desc name =>
      f.resolver.newField? f.owner name (some desc)
  | .enclosing _ => none

/-- What is at the new index, in later constants: what the text or pair at the old one is renamed
to. The index of a text that keeps its name is not replaced. -/
structure Renames (cs : Constants) (use : Use) (index index' : UInt16) : Prop where
  text : ∀ rename text, f.renaming? use = some rename → f.start.utf8? index = some text →
    cs.utf8? index' = some ((rename text).getD text)
  pair : ∀ declarer owner name desc, use = .enclosing declarer →
    f.start.className? declarer = some owner → f.start.nameAndType? index = some (name, desc) →
    cs.nameAndType? index' =
      some ((f.resolver.newMethod? owner name desc).getD name, f.resolver.newDescriptor desc)
  kept : ∀ rename text, f.renaming? use = some rename → f.start.utf8? index = some text →
    (rename text).getD text = text → index' = index

/-- An index of what is renamed to itself. -/
structure Leaves (use : Use) (index : UInt16) : Prop where
  text : ∀ rename text, f.renaming? use = some rename → f.start.utf8? index = some text →
    (rename text).getD text = text
  pair : ∀ declarer owner name desc, use = .enclosing declarer →
    f.start.className? declarer = some owner → f.start.nameAndType? index = some (name, desc) →
    (f.resolver.newMethod? owner name desc).getD name = name ∧ f.resolver.newDescriptor desc = desc

/-- A piece that names no symbol of the class as it was read, but those that are left alone. -/
def LeavesPiece : Piece → Prop
  | .mention true use index => f.Leaves use index
  | _ => True

/-- What is written for a piece, by what is at the indexes of later constants. -/
def Becomes (cs : Constants) (part : Copied) : Prop :=
  match part.piece with
  | .plain bytes => part.written = bytes
  | .name index kind => part.written = bytesOfNat 2 index.toNat ∧ f.start.utf8? index = some kind
  | .noName index kind => part.written = bytesOfNat 2 index.toNat ∧ f.start.utf8? index = none ∧
      (kind = "" ∨ cs.utf8? index = some kind)
  | .mention _ use index =>
      ∃ index', part.written = bytesOfNat 2 index'.toNat ∧ f.Renames cs use index index'

/-- A table and what is written for it. All pieces are written as they were but the indexes that are
mentioned: names and lengths of attributes, limits, bytecode and handlers of code, and every byte of
an attribute whose kind is not known. -/
def Rewritten (cs : Constants) (table table' : List UInt8) : Prop :=
  ∃ parts : List Copied, HasShape true .table (parts.map Copied.piece) ∧ table = taken parts ∧
    table' = written parts ∧ ∀ part ∈ parts, f.Becomes cs part

/-- Whether an attribute is of a kind by its name in the class as it was read. -/
def Names : Piece → Prop
  | .name index kind => f.start.utf8? index = some kind
  | .noName index _ => f.start.utf8? index = none
  | _ => True

/-- A piece that is not the index of a method behind the constants as they were read. -/
def Within : Piece → Prop
  | .mention true (.enclosing _) index => index.toNat < f.start.size
  | _ => True

/-- A settled pool of the constants as they were read. -/
def Quiet (p : Pool) : Prop := p.Settled ∧ p.constants = f.start

/-- Bytes were taken, and pieces were written. If something is known and all symbols of the pieces
are left alone, nothing is changed in a quiet pool, and a calm pool stays calm. -/
structure Rewrites (known : Prop) (s s' : State) (bytes : List UInt8) (parts : List Copied) :
    Prop where
  step : Step s s' bytes (written parts)
  becomes : ∀ part ∈ parts, f.Becomes s'.pool.constants part
  stays : known → f.Quiet s.pool → (∀ part ∈ parts, f.LeavesPiece part.piece) →
    s'.pool = s.pool ∧ ∀ part ∈ parts, part.written = part.piece.bytes
  calm : known → s.pool.Calm f.start → (∀ part ∈ parts, f.LeavesPiece part.piece) →
    (∀ part ∈ parts, f.Within part.piece) → s'.pool.Calm f.start

end Frame

/-- A computation that copies less bytes than a bound piece by piece, and what is true of the pieces
and the value that is given. -/
def Follows {α : Type} (f : Frame) (known : Prop) (bound : Nat) (c : Copy α)
    (P : List Piece → α → Prop) : Prop :=
  ∀ s a s', s.pool.Sound → f.start.Keeps Constant.isPart s.pool.constants →
    s.cursor.rest.length < bound → c s = (.ok a, s') →
    ∃ parts, f.Rewrites known s s' (taken parts) parts ∧ P (parts.map Copied.piece) a

section Bytes

@[simp] theorem taken_nil : taken [] = [] := rfl

@[simp] theorem written_nil : written [] = [] := rfl

@[simp] theorem taken_append (a b : List Copied) : taken (a ++ b) = taken a ++ taken b :=
  List.flatMap_append

@[simp] theorem written_append (a b : List Copied) : written (a ++ b) = written a ++ written b :=
  List.flatMap_append

theorem taken_eq (parts : List Copied) : taken parts = bytesOf (parts.map Copied.piece) := by
  rw [bytesOf, List.flatMap_map, taken]

end Bytes

section Judgement

variable {α β : Type} {f : Frame} {known : Prop} {bound : Nat}

theorem Frame.Quiet.calm {p : Pool} (h : f.Quiet p) : p.Calm f.start := h.2 ▸ h.1.calm

theorem Frame.Renames.mono {cs cs' : Constants} {use : Use} {index index' : UInt16}
    (h : f.Renames cs use index index') (hkeeps : cs.Keeps Constant.isShared cs') :
    f.Renames cs' use index index' :=
  ⟨fun rename text hrename htext => hkeeps.utf8? (h.text rename text hrename htext),
    fun declarer owner name desc huse howner hpair =>
      hkeeps.nameAndType? (h.pair declarer owner name desc huse howner hpair), h.kept⟩

theorem Frame.Becomes.mono {cs cs' : Constants} {part : Copied} (h : f.Becomes cs part)
    (hkeeps : cs.Keeps Constant.isShared cs') : f.Becomes cs' part := by
  obtain ⟨piece, bytes⟩ := part
  cases piece
  case plain => exact h
  case name => exact h
  case noName =>
    obtain ⟨hwritten, hnone, hkind⟩ := h
    exact ⟨hwritten, hnone, hkind.imp_right hkeeps.utf8?⟩
  case mention =>
    obtain ⟨index', hwritten, hrenames⟩ := h
    exact ⟨index', hwritten, hrenames.mono hkeeps⟩

/-- What is written for the name of an attribute tells its kind. -/
theorem Frame.Becomes.names {cs : Constants} {part : Copied} (h : f.Becomes cs part) :
    f.Names part.piece := by
  obtain ⟨piece, bytes⟩ := part
  cases piece
  case name => exact h.2
  case noName => exact h.2.1
  all_goals trivial

theorem Frame.Rewrites.nil {s : State} (h : s.pool.Sound) : f.Rewrites known s s [] [] :=
  ⟨.refl h, fun _ hpart => absurd hpart List.not_mem_nil,
    fun _ _ _ => ⟨rfl, fun _ hpart => absurd hpart List.not_mem_nil⟩, fun _ hcalm _ _ => hcalm⟩

theorem Frame.Rewrites.trans {a b c : State} {bytes bytes' : List UInt8} {parts more : List Copied}
    (hab : f.Rewrites known a b bytes parts) (hbc : f.Rewrites known b c bytes' more) :
    f.Rewrites known a c (bytes ++ bytes') (parts ++ more) := by
  have hkeeps := hbc.step.grown.keeps Constant.isShared
  refine ⟨?_, ?_, ?_, ?_⟩
  · rw [written_append]
    exact hab.step.trans hbc.step
  · intro part hpart
    rcases List.mem_append.1 hpart with hpart | hpart
    · exact (hab.becomes part hpart).mono hkeeps
    · exact hbc.becomes part hpart
  · intro hknown hquiet hleaves
    obtain ⟨hpool, hfirst⟩ := hab.stays hknown hquiet fun part hpart =>
      hleaves part (List.mem_append_left more hpart)
    obtain ⟨hpool', hsecond⟩ := hbc.stays hknown (hpool ▸ hquiet) fun part hpart =>
      hleaves part (List.mem_append_right parts hpart)
    refine ⟨hpool'.trans hpool, fun part hpart => ?_⟩
    rcases List.mem_append.1 hpart with hpart | hpart
    · exact hfirst part hpart
    · exact hsecond part hpart
  · intro hknown hcalm hleaves hwithin
    have hnext := hab.calm hknown hcalm
      (fun part hpart => hleaves part (List.mem_append_left more hpart))
      fun part hpart => hwithin part (List.mem_append_left more hpart)
    exact hbc.calm hknown hnext (fun part hpart => hleaves part (List.mem_append_right parts hpart))
      fun part hpart => hwithin part (List.mem_append_right parts hpart)

/-- In a calm pool, more may be known. -/
theorem Frame.Rewrites.imp {s s' : State} {bytes : List UInt8} {parts : List Copied} {known' : Prop}
    (h : f.Rewrites known s s' bytes parts) (hknown : known' → s.pool.Calm f.start → known) :
    f.Rewrites known' s s' bytes parts :=
  ⟨h.step, h.becomes, fun h' hquiet => h.stays (hknown h' hquiet.calm) hquiet,
    fun h' hcalm => h.calm (hknown h' hcalm) hcalm⟩

/-- What one part is copied as bounds what is left for the next. -/
theorem Follows.bind {c : Copy α} {g : α → Copy β} {P : List Piece → α → Prop}
    {Q : List Piece → β → Prop} (hc : Follows f known bound c P)
    (hg : ∀ pieces a, P pieces a → Follows f known (bound - (bytesOf pieces).length) (g a)
      fun more b => Q (pieces ++ more) b) : Follows f known bound (c >>= g) Q := by
  intro s b s' hsound hstart hbound hrun
  obtain ⟨a, next, hfirst, hrun⟩ := bind_eq_ok hrun
  obtain ⟨parts, hrewrites, hP⟩ := hc s a next hsound hstart hbound hfirst
  have hrest : next.cursor.rest.length <
      bound - (bytesOf (parts.map Copied.piece)).length := by
    have hlength := congrArg List.length hrewrites.step.rest
    rw [List.length_append, taken_eq] at hlength
    omega
  obtain ⟨more, hrewrites', hQ⟩ := hg _ a hP next b s' hrewrites.step.sound
    (hstart.trans (hrewrites.step.grown.keeps _)) hrest hrun
  refine ⟨parts ++ more, ?_, by rwa [List.map_append]⟩
  rw [taken_append]
  exact hrewrites.trans hrewrites'

theorem Follows.mono {c : Copy α} {P Q : List Piece → α → Prop} {bound' : Nat}
    (hc : Follows f known bound c P) (hbound : bound' ≤ bound)
    (hP : ∀ pieces a, P pieces a → Q pieces a) : Follows f known bound' c Q := by
  intro s a s' hsound hstart hrest hrun
  obtain ⟨parts, hrewrites, h⟩ := hc s a s' hsound hstart (Nat.lt_of_lt_of_le hrest hbound) hrun
  exact ⟨parts, hrewrites, hP _ a h⟩

theorem Follows.imp {known' : Prop} {c : Copy α} {P : List Piece → α → Prop}
    (h : Follows f known bound c P) (hknown : known' → known) : Follows f known' bound c P := by
  intro s a s' hsound hstart hbound hrun
  obtain ⟨parts, hrewrites, hP⟩ := h s a s' hsound hstart hbound hrun
  exact ⟨parts, hrewrites.imp fun h' _ => hknown h', hP⟩

/-- Bytes that are taken in a pool that stays. -/
theorem rewrites_nothing {s s' : State} {bytes : List UInt8} (hstep : Step s s' bytes [])
    (hpool : s'.pool = s.pool) : f.Rewrites known s s' bytes [] :=
  ⟨hstep, fun _ hpart => absurd hpart List.not_mem_nil,
    fun _ _ _ => ⟨hpool, fun _ hpart => absurd hpart List.not_mem_nil⟩,
    fun _ hcalm _ _ => by rwa [hpool]⟩

end Judgement

/-! ### Bytes -/

section Plain

variable {f : Frame} {known : Prop} {bound : Nat} {s s' : State}

end Plain

/-! ### Indexes -/

section Indexes

variable {f : Frame} {named : Bool} {known : Prop} {bound : Nat} {s s' : State}

/-- Indexes are the bytes they are taken from. -/
theorem flatMap_pairs (count : Nat) {bytes : List UInt8} (h : bytes.length = 2 * count) :
    (indexes.pairs bytes).flatMap (fun index => bytesOfNat 2 index.toNat) = bytes := by
  induction count generalizing bytes with
  | zero =>
    rw [List.length_eq_zero_iff.1 h]
    rfl
  | succ count ih =>
    rcases bytes with _ | ⟨a, _ | ⟨b, rest⟩⟩
    · cases h
    · simp only [List.length_cons, List.length_nil] at h
      omega
    · simp only [List.length_cons] at h
      have hfirst : bytesOfNat 2 (natOfBytes [a, b]).toUInt16.toNat = [a, b] := bytesOfNat_index rfl
      rw [indexes.pairs, List.flatMap_cons, hfirst, ih (by omega)]
      rfl

/-- Indexes are taken, and nothing is written yet. -/
theorem rewrites_indexes (f : Frame) (known : Prop) {count : Nat} {l : List UInt16}
    (hsound : s.pool.Sound) (hrun : indexes count s = (.ok l, s')) :
    f.Rewrites known s s' (l.flatMap fun index => bytesOfNat 2 index.toNat) [] ∧
      s'.pool = s.pool ∧ l.length = count := by
  obtain ⟨bytes, next, htake, hrun⟩ := bind_eq_ok hrun
  cases hrun
  obtain ⟨taken, written, hstep, rfl, rfl, hlength⟩ := copies_take _ s bytes s' hsound htake
  rw [flatMap_pairs count hlength, length_pairs, hlength]
  exact ⟨rewrites_nothing hstep (pool_take htake), pool_take htake, by omega⟩

/-- What a pool is extended by while a table is copied. -/
theorem step_withPool {α : Type} {g : WithPool α} {Q : Constants → α → Prop} {a : α}
    (hg : Pool.Interns g Q) (hsound : s.pool.Sound) (hrun : withPool g s = (.ok a, s')) :
    Step s s' [] [] ∧ Q s'.pool.constants a ∧ g s.pool = (.ok a, s'.pool) := by
  obtain ⟨pool, cursor, copied⟩ := s
  unfold withPool at hrun
  dsimp only at hrun ⊢
  rcases hfirst : g pool with ⟨r, pool'⟩
  rw [hfirst] at hrun
  cases hrun
  obtain ⟨hsound', hgrown, hQ⟩ := hg pool a pool' hsound hfirst
  exact ⟨⟨hsound', hgrown, rfl, rfl, rfl⟩, hQ, rfl⟩

/-- Nothing that is written moves a constant. -/
theorem step_emitIndex_pool {s₁ : State} {index : UInt16} {a : Unit} (hstep : Step s s₁ [] [])
    (hrun : emitIndex index s₁ = (.ok a, s')) :
    Step s s' [] (bytesOfNat 2 index.toNat) ∧ s'.pool = s₁.pool := by
  have hboth := hstep.trans (step_emitIndex hstep.sound hrun)
  exact ⟨by simpa using hboth, pool_emit hrun⟩

/-- The new index of a text, by what is at it. -/
theorem renamedIndex_eq_ok {rename : String → Option String} {index index' : UInt16}
    (hsound : s.pool.Sound) (hrun : renamedIndex index rename s = (.ok index', s')) :
    Step s s' [] [] ∧
    (∀ text, s.pool.constants.utf8? index = some text →
      s'.pool.constants.utf8? index' = some ((rename text).getD text)) ∧
    ((∀ text, s.pool.constants.utf8? index = some text → (rename text).getD text = text) →
      s' = s ∧ index' = index) := by
  obtain ⟨_, _, hget, hrun⟩ := bind_eq_ok hrun
  cases hget
  cases hfound : s.pool.constants.utf8? index with
  | none =>
    simp only [hfound] at hrun
    cases hrun
    exact ⟨.refl hsound, fun _ h => (by cases h), fun _ => ⟨rfl, rfl⟩⟩
  | some found =>
    simp only [hfound] at hrun
    cases hfilter : (rename found).filter (· ≠ found) with
    | none =>
      simp only [hfilter] at hrun
      cases hrun
      refine ⟨.refl hsound, fun text htext => ?_, fun _ => ⟨rfl, rfl⟩⟩
      cases htext
      rcases hrename : rename found with _ | renamed
      · exact hfound
      · have hsame : renamed = found := by simpa [hrename] using hfilter
        rw [hfound, Option.getD_some, hsame]
    | some renamed =>
      simp only [hfilter] at hrun
      obtain ⟨hrename, hne⟩ := Option.filter_eq_some_iff.1 hfilter
      obtain ⟨hstep, hat, -⟩ := step_withPool (Pool.interns_internText renamed) hsound hrun
      refine ⟨hstep, fun text htext => ?_, fun hleft => ?_⟩
      · cases htext
        rw [hrename, Option.getD_some, Constants.utf8?, hat]
      · have hkept := hleft found rfl
        rw [hrename, Option.getD_some] at hkept
        exact absurd hkept (of_decide_eq_true hne)

end Indexes

end JarRemap.Attributes
