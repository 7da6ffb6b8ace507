import Mathlib.Logic.Function.Basic
import Mathlib.Tactic.Common
import Reactive.CommandLine
import Reactive.Proofs.Consuming
import Reactive.Proofs.Roundtrip

/-!
# Reactive.Proofs.Outputs — which generated files are there in the end

* `Legible name`: the name can be told from the stem of a file name that is made of it.  The full name of a class that a
  text declares is legible (`ClassHeader.Spelled.legible`), so classes of different names have different files
  (`Artifact.className_inj`).
* `written_of_writeReports`: writing gives the files of the artifacts their contents, one after the other, and leaves all
  other files as they are.
* `last_output_kept`: the last artifact of a class is in its file in the end, and so is every one if no two classes have
  the same name (`every_output_kept`).
-/

namespace Reactive

open Stateful

/-! ### Names and the stems of file names -/

/-- The name that the stem of a file name is made of. -/
def stemName (stem : String) : String :=
  String.ofList <| stem.toList.flatMap fun c =>
    if c = '\x7b' then ['<'] else if c = '\x7d' then ['>'] else if c = ',' then [',', ' '] else [c]

/-- A name can be told from its stem. -/
def Legible (name : String) : Prop := stemName (fileStem name) = name

instance : DecidablePred Legible := fun name => inferInstanceAs (Decidable (stemName (fileStem name) = name))

variable {s t name : String}

theorem fileStem_append (s t : String) : fileStem (s ++ t) = fileStem s ++ fileStem t := by
  simp [fileStem]

theorem stemName_append (s t : String) : stemName (s ++ t) = stemName s ++ stemName t := by
  simp [stemName]

theorem Legible.append (hs : Legible s) (ht : Legible t) : Legible (s ++ t) := by
  unfold Legible
  rw [fileStem_append, stemName_append, hs, ht]

theorem Legible.inj (hs : Legible s) (ht : Legible t) (h : fileStem s = fileStem t) : s = t :=
  calc s = stemName (fileStem s) := hs.symm
    _ = stemName (fileStem t) := by rw [h]
    _ = t := ht

/-- Names with commas between them. -/
theorem legible_list : ∀ {names : List String}, (∀ n ∈ names, Legible n) → Legible (", ".intercalate names)
  | [], _ => by decide
  | [n], h => by
    rw [String.intercalate_singleton]
    exact h n List.mem_cons_self
  | n :: n' :: names, h => by
    rw [String.intercalate_cons_cons]
    refine ((h n List.mem_cons_self).append (by decide)).append ?_
    exact legible_list fun m hm => h m (List.mem_cons_of_mem _ hm)

namespace Lexer

/-- A name, or names with points between them: there is nothing else in it. -/
def IsPath (path : String) : Prop := ∀ c ∈ path.toList, isNameChar c = true ∨ c = '.'

theorem IsName.isPath (h : IsName name) : IsPath name := by
  obtain ⟨-, c, cs, hname, hc, hcs⟩ := h
  rw [IsPath, hname]
  refine List.forall_mem_cons.mpr ⟨Or.inl ?_, fun d hd => Or.inl (hcs d hd)⟩
  rw [isNameStart, Bool.or_eq_true] at hc
  rw [isNameChar, Bool.or_eq_true, Char.isAlphanum, Bool.or_eq_true]
  exact hc.imp_left Or.inl

theorem IsPath.point (hs : IsPath s) (ht : IsPath t) : IsPath (s ++ "." ++ t) := by
  intro c hc
  rw [String.toList_append, String.toList_append, List.mem_append, List.mem_append] at hc
  rcases hc with (hc | hc) | hc
  · exact hs c hc
  · exact Or.inr (List.mem_singleton.mp hc)
  · exact ht c hc

/-- What is in a name is neither white space nor a mark around type parameters or between them. -/
theorem isNameChar_plain {c : Char} (h : isNameChar c = true ∨ c = '.') :
    Text.isBlank c = false ∧ c ≠ '<' ∧ c ≠ '>' ∧ c ≠ '\x7b' ∧ c ≠ '\x7d' ∧ c ≠ ',' := by
  have hrange : ((((65 ≤ c.toNat ∧ c.toNat ≤ 90) ∨ (97 ≤ c.toNat ∧ c.toNat ≤ 122)) ∨
      (48 ≤ c.toNat ∧ c.toNat ≤ 57)) ∨ c.toNat = 95) ∨ c.toNat = 46 := by
    have hupper : c.isUpper = true ↔ 65 ≤ c.toNat ∧ c.toNat ≤ 90 :=
      decide_eq_true_iff (p := c.val ≥ 'A'.val ∧ c.val ≤ 'Z'.val)
    have hlower : c.isLower = true ↔ 97 ≤ c.toNat ∧ c.toNat ≤ 122 := by
      show (decide (c.val ≥ 'a'.val) && decide (c.val ≤ 'z'.val)) = true ↔ _
      rw [Bool.and_eq_true, decide_eq_true_eq, decide_eq_true_eq]
      exact Iff.rfl
    have hdigit : c.isDigit = true ↔ 48 ≤ c.toNat ∧ c.toNat ≤ 57 := Char.isDigit_iff_toNat
    have halphanum : c.isAlphanum = (c.isUpper || c.isLower || c.isDigit) := rfl
    simp only [isNameChar, halphanum, Bool.or_eq_true, hupper, hlower, hdigit, decide_eq_true_eq] at h
    exact h.imp (Or.imp id (congrArg Char.toNat)) (congrArg Char.toNat)
  have hne (d : Char) (hd : c.toNat ≠ d.toNat) : c ≠ d := fun hcd => hd (congrArg Char.toNat hcd)
  refine ⟨?_, hne _ ?_, hne _ ?_, hne _ ?_, hne _ ?_, hne _ ?_⟩
  · simp only [Text.isBlank, Bool.or_eq_false_iff, decide_eq_false_iff_not, Bool.and_eq_false_iff]
    omega
  all_goals
    simp only [Char.reduceToNat]
    omega

theorem IsPath.legible (h : IsPath name) : Legible name := by
  have hstem : fileStem name = name := by
    have hkept : name.toList.filter (!Text.isBlank ·) = name.toList :=
      List.filter_eq_self.mpr fun c hc => by rw [(isNameChar_plain (h c hc)).1, Bool.not_false]
    rw [fileStem, hkept, List.map_congr_left (g := id), List.map_id, String.ofList_toList]
    intro c hc
    obtain ⟨-, hless, hgreater, -⟩ := isNameChar_plain (h c hc)
    rw [if_neg hless, if_neg hgreater, id_eq]
  rw [Legible, hstem, stemName, List.flatMap_def, List.map_congr_left (g := fun c => [c]), ← List.flatMap_def,
    List.flatMap_singleton', String.ofList_toList]
  intro c hc
  obtain ⟨-, -, -, hleft, hright, hcomma⟩ := isNameChar_plain (h c hc)
  rw [if_neg hleft, if_neg hright, if_neg hcomma]

end Lexer

namespace ClassHeader

/-- The names in the header are names that a text may have. -/
structure Spelled (h : ClassHeader) : Prop where
  name : Lexer.IsName h.name
  typeParams : ∀ p ∈ h.typeParams, Lexer.IsName p
  namespaceName : ∀ n, h.namespaceName = some n → Lexer.IsPath n

theorem Spelled.legible {h : ClassHeader} (hh : h.Spelled) : Legible h.fullName := by
  have hdisplay : Legible h.displayName := by
    have hname := hh.name.isPath.legible
    unfold displayName withTypeParams
    split
    · exact hname
    · have hparams := legible_list fun p hp => (hh.typeParams p hp).isPath.legible
      exact ((hname.append (by decide)).append hparams).append (by decide)
  unfold fullName qualify
  cases hspace : h.namespaceName with
  | none => exact hdisplay
  | some n => exact ((hh.namespaceName n hspace).legible.append (by decide)).append hdisplay

end ClassHeader

/-! ### Names in a file -/

/-- The names of the class and of its type parameters are names that a text may have. -/
structure ClassDecl.Spelled (d : ClassDecl) : Prop where
  name : Lexer.IsName d.name
  typeParams : ∀ p ∈ d.typeParams, Lexer.IsName p

theorem Cursor.Lexed.behind {c c' : Cursor} {part : Tokens} (h : c.Lexed) (htokens : c.tokens = part ++ c'.tokens) :
    c'.Lexed := by
  intro t ht
  rw [Cursor.kinds] at ht
  refine h t ?_
  rw [Cursor.kinds, htokens, List.map_append]
  exact List.mem_append_right _ ht

namespace Parse

variable {α : Type} {P : α → Prop} {x : Parse α} {n : Nat} {c c' : Cursor}

/-- A rule that leaves what is behind some tokens. -/
theorem gives_of_takes (h : ∀ c, Takes n x c) : Gives (fun _ => True) x := fun c hc =>
  (h c).imp fun _ _ ⟨_, htokens, _⟩ => ⟨trivial, hc.behind htokens⟩

theorem gives_separated (h : Gives P x) : ∀ k, Gives (fun as => ∀ a ∈ as, P a) (separated x k)
  | 0 => h.bind fun a ha => gives_pure (by simpa using ha)
  | k + 1 => by
    refine h.bind fun a ha => (gives_accept _).bind fun _ _ => gives_ite ?_ (gives_pure (by simpa using ha))
    exact (gives_separated h k).bind fun as has => gives_pure (List.forall_mem_cons.mpr ⟨ha, has⟩)

theorem gives_dotted : ∀ (k : Nat) {name : String}, Lexer.IsPath name → Gives Lexer.IsPath (dotted name k)
  | 0, _, h => gives_pure h
  | k + 1, _, h => (gives_accept _).bind fun _ _ =>
      gives_ite (gives_identifier.bind fun _ hn => gives_dotted k (h.point hn.isPath)) (gives_pure h)

theorem gives_qualifiedName : Gives Lexer.IsPath qualifiedName :=
  gives_identifier.bind fun _ hn => gives_remaining.bind fun k _ => gives_dotted k hn.isPath

theorem gives_classHeader : Gives ClassDecl.Spelled classHeader := by
  refine gives_currentSpan.bind fun start _ => (gives_of_takes takes_attributes).bind fun _ _ => ?_
  refine (gives_of_takes takes_modifiers).bind fun modifiers _ => (gives_expect _).bind fun _ _ => ?_
  refine gives_identifier.bind fun (name, nameSpan) hname => ?_
  have hbases (typeParams : List String) (hparams : ∀ p ∈ typeParams, Lexer.IsName p) : Gives ClassDecl.Spelled (do
      let bases ← if ← accept (.symbol .colon) then separated type (← remaining) else pure []
      expect (.symbol .leftBrace)
      return ⟨name, typeParams, modifiers, bases, [], nameSpan, start⟩ : Parse ClassDecl) := by
    have hbrace (bases : List TypeRef) : Gives ClassDecl.Spelled (do
        expect (.symbol .leftBrace)
        return ⟨name, typeParams, modifiers, bases, [], nameSpan, start⟩ : Parse ClassDecl) :=
      (gives_expect _).bind fun _ _ => gives_pure ⟨hname, hparams⟩
    refine (gives_accept _).bind fun _ _ => gives_ite (gives_remaining.bind fun k _ => ?_) (hbrace [])
    exact (gives_of_takes (takes_separated takes_type k)).bind fun bases _ => hbrace bases
  have hparam : Gives Lexer.IsName (Prod.fst <$> identifier) := by
    rw [map_eq_pure_bind]
    exact gives_identifier.bind fun _ hn => gives_pure hn
  refine (gives_accept _).bind fun _ _ => gives_ite (gives_remaining.bind fun k _ => ?_) (hbases [] nofun)
  refine (gives_separated hparam k).bind fun params hparams => (gives_expect _).bind fun _ _ => ?_
  exact hbases params hparams

theorem spelled_of_classDecl {d : ClassDecl} {errors : List ParseError} (hc : c.Lexed)
    (h : classDecl c = (some d, errors, c')) : d.Spelled := by
  unfold classDecl at h
  cases hheader : classHeader c with
  | error e c₁ =>
    rw [hheader] at h
    cases h
  | ok header c₁ =>
    have hspelled := (gives_classHeader c hc header c₁ hheader).1
    rw [hheader] at h
    dsimp only at h
    split at h
    · cases h
    · cases h
      exact ⟨hspelled.name, hspelled.typeParams⟩

theorem spelled_of_classes (braced : Bool) : ∀ (k : Nat) {c c' : Cursor} {ds : List ClassDecl}, c.Lexed →
    classes braced k c = (ds, [], c') → ∀ d ∈ ds, d.Spelled
  | 0, _, _, _, _, h => by
    cases h
    exact nofun
  | k + 1, c, c', ds, hc, h => by
    unfold classes at h
    split at h
    · cases h
      exact nofun
    · rcases hclass : classDecl c with ⟨d | d, errors, c₁⟩
      · rw [hclass] at h
        have hnil := (List.append_eq_nil_iff.mp (congrArg (·.2.1) h)).1
        exact absurd hnil (errors_of_classDecl hclass)
      · rw [hclass] at h
        have hnil := List.append_eq_nil_iff.mp (congrArg (·.2.1) h)
        obtain rfl : errors = [] := hnil.1
        obtain rfl := congrArg Prod.fst h
        obtain ⟨part, htokens, -⟩ := tokens_of_classDecl hclass
        refine List.forall_mem_cons.mpr ⟨spelled_of_classDecl hc hclass, ?_⟩
        exact spelled_of_classes braced k (hc.behind htokens) (Prod.ext rfl (Prod.ext hnil.2 rfl))

theorem isPath_of_namespaceClause {n : String} {braced : Bool} {errors : List ParseError} (hc : c.Lexed)
    (h : namespaceClause c = (some n, braced, errors, c')) : Lexer.IsPath n := by
  unfold namespaceClause at h
  split at h
  · cases hname : qualifiedName c.advance with
    | error e c₁ =>
      rw [hname] at h
      dsimp only at h
      repeat' split at h
      all_goals cases h
    | ok path c₁ =>
      have hpath := (gives_qualifiedName c.advance hc.advance path c₁ hname).1
      rw [hname] at h
      dsimp only at h
      repeat' split at h
      all_goals
        cases h
        exact hpath
  · cases h

end Parse

open Parse in
/-- The names in an accepted file are names that a text may have. -/
theorem SourceFile.spelled_of_parse {text : String} {file : SourceFile} (h : SourceFile.parse text = .ok file) :
    (∀ n, file.namespaceName = some n → Lexer.IsPath n) ∧ ∀ d ∈ file.classes, d.Spelled := by
  obtain ⟨stream, hstream, hfile⟩ := SourceFile.parse_eq_ok h
  obtain ⟨c₁, braced, c₂, c₃, husings, hclause, hclasses, -⟩ := file_eq_ok hfile
  obtain ⟨directives, hdirectives, -⟩ := tokens_of_usings _ husings
  obtain ⟨clause, hclauses, -⟩ := tokens_of_namespaceClause hclause
  have hlexed : c₁.Lexed := (Cursor.lexed_of_tokenize hstream).behind hdirectives
  refine ⟨fun n hn => ?_, spelled_of_classes braced _ (hlexed.behind hclauses) hclasses⟩
  rw [hn] at hclause
  exact isPath_of_namespaceClause hlexed hclause

/-! ### Headers -/

/-- The models of a file have the headers of its classes. -/
theorem spelled_of_analyze {s : DeclarationSet} (hspace : ∀ n, s.file.namespaceName = some n → Lexer.IsPath n)
    (hclasses : ∀ d ∈ s.file.classes, d.Spelled) : ∀ m ∈ s.analyze.models, m.header.Spelled := by
  intro m hm
  obtain ⟨result, hresult, hmodel⟩ := List.mem_filterMap.mp hm
  obtain ⟨d, hd, rfl⟩ := List.mem_map.mp hresult
  unfold DeclarationSet.analyzeClass at hmodel
  split at hmodel
  · cases hmodel
  · split at hmodel
    · cases hmodel
    · cases hmodel
      exact ⟨(hclasses d hd).name, (hclasses d hd).typeParams, hspace⟩

/-! ### Artifacts -/

namespace SourceDraft

variable {header : Option ClassHeader}

theorem keeps_header_updateProperty (name : String) (f : PropertyBlock → PropertyBlock) :
    Keeps (fun d => d.header = header) (updateProperty name f) := by
  unfold updateProperty
  refine keeps_get.bind fun d => ?_
  split
  · exact keeps_modify fun _ hd => hd
  · exact keeps_throw _

theorem keeps_header_finishCommand (name : String) (body : List String) :
    Keeps (fun d => d.header = header) (finishCommand name body) := by
  unfold finishCommand
  refine keeps_get.bind fun d => ?_
  split
  · exact keeps_modify fun _ hd => hd
  · exact keeps_throw _

theorem keeps_header_addMethod (signature : MethodSignature) (body : List String) :
    Keeps (fun d => d.header = header) (addMethod signature body) := by
  unfold addMethod
  split
  · exact keeps_header_updateProperty _ _
  · exact keeps_header_updateProperty _ _
  · exact keeps_modify fun _ hd => hd
  · exact keeps_modify fun _ hd => hd
  · exact keeps_header_finishCommand _ _
  · exact keeps_modify fun _ hd => hd

/-- Only the first piece of a class says which class it is. -/
theorem keeps_header_add : ∀ {piece : Fragment}, (∀ h, piece ≠ .beginClass h) →
    Keeps (fun d => d.header = header) (add piece)
  | .beginClass h, hpiece => absurd rfl (hpiece h)
  | .field decl, _ => by
    intro d hd
    have hfield : (d.addField decl).header = header := by
      unfold addField
      split
      · exact hd
      · exact hd
    exact hfield
  | .function decl, _ => by
    intro d hd
    unfold add
    rw [get_bind]
    dsimp only
    cases d.context.declaredName with
    | ok name => exact hd
    | error e => exact hd
  | .hook _, _ => fun _ hd => hd
  | .property _, _ => fun _ hd => hd
  | .beginMethod signature, _ => by
    intro d hd
    unfold add
    rw [get_bind]
    dsimp only
    cases d.current with
    | some outer => exact hd
    | none => exact hd
  | .statement s, _ => by
    intro d hd
    unfold add
    rw [get_bind]
    dsimp only
    cases s.source d.context with
    | error e => exact hd
    | ok lines =>
      cases d.current with
      | none => exact hd
      | some method => exact hd
  | .endMethod, _ => by
    intro d hd
    unfold add
    rw [get_bind]
    dsimp only
    cases d.current with
    | none => exact hd
    | some method =>
      obtain ⟨signature, body⟩ := method
      exact keeps_header_addMethod signature body { d with current := none } hd
  | .redirect _ _, _ => fun _ hd => hd

end SourceDraft

/-- A class begins once. -/
theorem beginClass_not_mem_fragments (member : GeneratedMember) (h : ClassHeader) :
    Fragment.beginClass h ∉ member.fragments := by
  cases member <;> simp [GeneratedMember.fragments]

/-- A generated file has the names of the header of its class. -/
theorem SourceUnit.names_ofModel {m : ClassModel} {unit : SourceUnit} (h : SourceUnit.ofModel m = .ok unit) :
    unit.className = m.header.fullName ∧ unit.fileName = m.header.unitFileName := by
  unfold SourceUnit.ofModel at h
  cases hrun : (do m.fragments.forM SourceDraft.add; SourceDraft.finish : SourceDrafting SourceUnit) .empty with
  | error e d =>
    rw [hrun] at h
    cases h
  | ok unit' d' =>
    rw [hrun] at h
    cases h
    obtain ⟨_, d, hadd, hfinish⟩ := bind_eq_ok.mp hrun
    obtain ⟨_, d₁, h₁, hadd⟩ :=
      bind_eq_ok.mp (show (SourceDraft.add (.beginClass m.header) >>= _) SourceDraft.empty = _ from hadd)
    cases h₁
    have hheader : d.header = some m.header := by
      have hkeeps : Keeps (fun d => d.header = some m.header)
          ((m.generatedMembers.flatMap GeneratedMember.fragments).forM SourceDraft.add) := by
        refine keeps_forM fun piece hpiece => SourceDraft.keeps_header_add fun h hbegin => ?_
        obtain ⟨member, -, hmember⟩ := List.mem_flatMap.mp hpiece
        exact beginClass_not_mem_fragments member h (hbegin ▸ hmember)
      have h := hkeeps { SourceDraft.empty with header := some m.header } rfl
      rw [hadd] at h
      exact h
    unfold SourceDraft.finish at hfinish
    rw [get_bind, hheader] at hfinish
    cases hfinish
    exact ⟨rfl, rfl⟩

/-- The file that a back-end generates for a class. -/
def Backend.fileName (backend : Backend) (h : ClassHeader) : String :=
  match backend with
  | .source => h.unitFileName
  | .patch => h.patchFileName

/-- What is generated for a class has the names of its header. -/
theorem Artifact.names_ofModel {backend : Backend} {set : DeclarationSet} {m : ClassModel} {a : Artifact}
    (h : Artifact.ofModel backend set m = .ok a) :
    a.className = m.header.fullName ∧ a.fileName = backend.fileName m.header := by
  cases backend with
  | source =>
    unfold Artifact.ofModel ofSource at h
    cases hunit : SourceUnit.ofModel m with
    | error e =>
      rw [hunit] at h
      cases h
    | ok unit =>
      rw [hunit] at h
      cases h
      exact SourceUnit.names_ofModel hunit
  | patch =>
    unfold Artifact.ofModel ofPatch at h
    dsimp only at h
    repeat' split at h
    all_goals cases h
    exact ⟨rfl, rfl⟩

/-- What is generated for a class whose header has names of a text. -/
def Artifact.Named (backend : Backend) (a : Artifact) : Prop :=
  ∃ h : ClassHeader, h.Spelled ∧ a.className = h.fullName ∧ a.fileName = backend.fileName h

namespace FileReport

variable {backend : Backend} {set : DeclarationSet} {r : FileReport}

theorem named_addModel {m : ClassModel} (hm : m.header.Spelled) (hr : ∀ a ∈ r.artifacts, a.Named backend) :
    ∀ a ∈ (r.addModel backend set m).artifacts, a.Named backend := by
  intro a ha
  unfold addModel at ha
  cases hartifact : Artifact.ofModel backend set m with
  | error e =>
    rw [hartifact] at ha
    exact hr a ha
  | ok artifact =>
    rw [hartifact] at ha
    rcases List.mem_append.mp ha with ha | ha
    · exact hr a ha
    · obtain rfl := List.mem_singleton.mp ha
      exact ⟨m.header, hm, Artifact.names_ofModel hartifact⟩

theorem named_addModels : ∀ {models : List ClassModel} {r : FileReport}, (∀ m ∈ models, m.header.Spelled) →
    (∀ a ∈ r.artifacts, a.Named backend) → ∀ a ∈ (models.foldl (addModel backend set) r).artifacts, a.Named backend
  | [], _, _, hr => hr
  | m :: models, r, hmodels, hr => by
    have hrest : ∀ m' ∈ models, m'.header.Spelled := fun m' hm' => hmodels m' (List.mem_cons_of_mem _ hm')
    show ∀ a ∈ (models.foldl (addModel backend set) (r.addModel backend set m)).artifacts, a.Named backend
    exact named_addModels hrest (named_addModel (hmodels m List.mem_cons_self) hr)

/-- Whatever is generated for a text is named after a class of the text. -/
theorem named_ofText (conventions : Conventions) (path text : String) :
    ∀ a ∈ (ofText conventions (.emit backend) path text).artifacts, a.Named backend := by
  unfold ofText DeclarationSet.parse
  cases hparse : SourceFile.parse text with
  | error e => exact nofun
  | ok file =>
    obtain ⟨hspace, hclasses⟩ := SourceFile.spelled_of_parse hparse
    exact named_addModels (spelled_of_analyze hspace hclasses) nofun

end FileReport

/-- Artifacts of different classes are different files. -/
theorem Artifact.className_inj {backend : Backend} {a b : Artifact} (ha : a.Named backend) (hb : b.Named backend)
    (h : a.fileName = b.fileName) : a.className = b.className := by
  obtain ⟨i, hi, hclass, hfile⟩ := ha
  obtain ⟨j, hj, hclass', hfile'⟩ := hb
  rw [hfile, hfile'] at h
  rw [hclass, hclass']
  have hstem : fileStem i.fullName = fileStem j.fullName := by
    cases backend with
    | source => exact String.append_left_inj _ |>.mp h
    | patch => exact String.append_left_inj _ |>.mp h
  exact hi.legible.inj hj.legible hstem

/-! ### Writing -/

theorem Path.split_inj (h : Path.split s = Path.split t) : s = t := by
  have hlists := (List.map_inj_right fun _ _ => String.ofList_inj.mp).mp h
  calc s = String.ofList (['/'].intercalate (s.toList.splitOn '/')) := by
        rw [List.intercalate_splitOn, String.ofList_toList]
    _ = String.ofList (['/'].intercalate (t.toList.splitOn '/')) := by rw [hlists]
    _ = t := by rw [List.intercalate_splitOn, String.ofList_toList]

namespace Files

variable {way : List String}

theorem lookup_putIn (way way' : List String) (text : String) : ∀ entries : List (List String × String),
    (putIn way text entries).lookup way' = if way' = way then some text else entries.lookup way'
  | [] => by
    rw [putIn, List.lookup_cons, List.lookup_nil]
    by_cases h : way' = way
    · rw [if_pos h, beq_iff_eq.mpr h]
    · rw [if_neg h, beq_eq_false_iff_ne.mpr h]
  | (other, content) :: rest => by
    unfold putIn
    dsimp only
    by_cases hother : other = way
    · rw [if_pos hother, List.lookup_cons, List.lookup_cons, hother]
      by_cases h : way' = way
      · rw [if_pos h, beq_iff_eq.mpr h]
      · rw [if_neg h, beq_eq_false_iff_ne.mpr h]
    · rw [if_neg hother, List.lookup_cons, List.lookup_cons, lookup_putIn way way' text rest]
      by_cases h : way' = way
      · rw [if_pos h, if_pos h, h, beq_eq_false_iff_ne.mpr (Ne.symm hother)]
      · rw [if_neg h, if_neg h]

/-- A file that is given a text has it, and the others have theirs. -/
theorem text?_put (f : Files) (way : List String) (text : String) :
    (f.put way text).text? = Function.update f.text? way (some text) := by
  funext way'
  rw [Function.update_apply]
  exact lookup_putIn way way' text f.entries

/-- The texts of files once an artifact is in its file. -/
def written (way : List String) (texts : List String → Option String) (a : Artifact) : List String → Option String :=
  Function.update texts (way ++ Path.split a.fileName) (some a.contents)

variable {skipsUnchanged : Bool} {folder : String} {f : Files}

theorem written_of_writeArtifact (a : Artifact) :
    Ends (writeArtifact skipsUnchanged folder way a) f fun _ f' => f'.text? = written way f.text? a := by
  unfold writeArtifact
  intro count f' h
  rw [get_bind] at h
  split at h
  · -- The file is as it would be written.
    rename_i hsame
    obtain ⟨-, rfl⟩ := pure_eq_ok.mp h
    rw [Bool.and_eq_true, decide_eq_true_eq] at hsame
    exact (Function.update_eq_self_iff.mpr hsame.2.symm).symm
  · cases hwrite : f.write? way a.fileName a.contents with
    | none =>
      rw [hwrite] at h
      exact absurd h throw_ne_ok
    | some f₁ =>
      rw [hwrite] at h
      obtain ⟨_, _, hset, hpure⟩ := bind_eq_ok.mp h
      obtain rfl := set_eq_ok.mp hset
      obtain ⟨-, rfl⟩ := pure_eq_ok.mp hpure
      unfold write? at hwrite
      dsimp only at hwrite
      split at hwrite
      · cases hwrite
      · cases hwrite
        exact text?_put f _ _

theorem written_of_writeArtifacts (artifacts : List Artifact) :
    Ends (writeArtifacts skipsUnchanged folder artifacts) f fun _ f' =>
      ∃ way, f.folder? folder = some way ∧ f'.text? = artifacts.foldl (written way) f.text? := by
  intro count f' h
  unfold writeArtifacts at h
  rw [get_bind] at h
  cases hway : f.folder? folder with
  | none =>
    rw [hway] at h
    exact absurd h throw_ne_ok
  | some way =>
    rw [hway] at h
    refine ⟨way, rfl, ?_⟩
    refine ends_foldlM Files.text? (written way) (fun count a f => ?_) count f' h
    exact (written_of_writeArtifact a).bind fun _ _ h => ends_pure h

end Files

namespace CommandLine

variable {isQuiet skipsUnchanged : Bool} {label folder : String} {c : Console} {way : List String}

theorem ends_ofWriting {α : Type} {w : Writing α} {P : α → Files → Prop} (h : Ends w c.files P) :
    Ends (Job.ofWriting w) c fun a c' => P a c'.files := by
  intro a c' hrun
  unfold Job.ofWriting at hrun
  cases hw : w c.files with
  | error e files =>
    rw [hw] at hrun
    cases hrun
  | ok b files =>
    rw [hw] at hrun
    cases hrun
    exact h a files hw

/-- What is told leaves the files as they are. -/
theorem keeps_files_status (files : Files) (text : String) :
    Keeps (fun c => c.files = files) (Job.status isQuiet label text) := by
  unfold Job.status
  split
  · exact keeps_pure ()
  · exact keeps_modify fun _ h => h

theorem written_of_writeReport (r : FileReport) :
    Ends (writeReport isQuiet skipsUnchanged label folder r) c fun _ c' => ∃ way, c.files.folder? folder = some way ∧
      c'.files.text? = r.artifacts.foldl (Files.written way) c.files.text? := by
  unfold writeReport
  refine (ends_ofWriting (Files.written_of_writeArtifacts r.artifacts)).bind fun count c' ⟨way, hway, hwritten⟩ => ?_
  have htold : Keeps (fun c : Console => c.files = c'.files)
      (r.artifacts.forM fun a => Job.status isQuiet label a.fileName) :=
    keeps_forM fun a _ => keeps_files_status c'.files a.fileName
  exact (htold.ends rfl).bind fun _ c'' hfiles => ends_pure ⟨way, hway, by rw [hfiles, hwritten]⟩

/-- Where a folder is, if it can be made, does not depend on the files. -/
theorem wayTo_of_folder? {f : Files} (h : f.folder? folder = some way) :
    Files.wayTo [] (Path.parts folder) = some way := (Option.filter_eq_some_iff.mp h).1

/-- After a run without errors the artifacts have been written, one after the other. -/
theorem written_of_writeReports (reports : List FileReport) :
    Ends (writeReports isQuiet skipsUnchanged label folder reports) c fun _ c' => reports = [] ∨
      ∃ way, c.files.folder? folder = some way ∧
        c'.files.text? = (reports.flatMap FileReport.artifacts).foldl (Files.written way) c.files.text? := by
  unfold writeReports
  have hreport (count : WriteCount) (r : FileReport) (c : Console) :
      Ends (do return count + (← writeReport isQuiet skipsUnchanged label folder r) : Job WriteCount) c fun _ c' =>
        ∃ way, c.files.folder? folder = some way ∧
          c'.files.text? = r.artifacts.foldl (Files.written way) c.files.text? :=
    (written_of_writeReport r).bind fun _ _ h => ends_pure h
  refine Ends.bind (P := fun _ c' => reports = [] ∨ ∃ way, c.files.folder? folder = some way ∧
    c'.files.text? = (reports.flatMap FileReport.artifacts).foldl (Files.written way) c.files.text?) ?_ ?_
  · cases reports with
    | nil => exact ends_pure (Or.inl rfl)
    | cons r rest =>
      rw [List.foldlM_cons]
      refine (hreport 0 r c).bind fun count c' ⟨way, hway, hwritten⟩ => ?_
      -- All reports are written to the folder that the first one is written to.
      have hrest (count : WriteCount) (r : FileReport) (c : Console) :=
        (hreport count r c).imp fun _ c' ⟨way', hway', hwritten'⟩ =>
          show c'.files.text? = r.artifacts.foldl (Files.written way) c.files.text? by
            have hsame : some way' = some way := (wayTo_of_folder? hway').symm.trans (wayTo_of_folder? hway)
            rw [hwritten', Option.some.inj hsame]
      refine (ends_foldlM _ (fun texts r => r.artifacts.foldl (Files.written way) texts) hrest).imp
        fun _ c'' hrun => Or.inr ⟨way, hway, ?_⟩
      rw [hrun, hwritten, List.flatMap_cons, List.foldl_append, List.foldl_flatMap]
  · intro count c' hwritten
    split
    · exact ((keeps_files_status c'.files _).ends rfl).imp fun _ c'' hfiles => by rw [hfiles]; exact hwritten
    · exact ends_pure hwritten

end CommandLine

/-! ### The last artifact of a class -/

theorem foldl_written_of_not_mem {way path : List String} : ∀ {artifacts : List Artifact}
    {texts : List String → Option String}, (∀ b ∈ artifacts, way ++ Path.split b.fileName ≠ path) →
      artifacts.foldl (Files.written way) texts path = texts path
  | [], _, _ => rfl
  | b :: rest, texts, h => by
    rw [List.foldl_cons, foldl_written_of_not_mem fun b' hb' => h b' (List.mem_cons_of_mem _ hb')]
    exact Function.update_of_ne (h b List.mem_cons_self).symm _ _

open CommandLine in
/-- **The last file of a class is there.**  When what was generated from texts has been written without an error, the
file of an artifact has its contents, unless an artifact of a class of the same full name comes after it. -/
theorem last_output_kept {conventions : Conventions} {backend : Backend} {reports : List FileReport}
    {isQuiet skipsUnchanged : Bool} {label folder : String} {console console' : Console} {before after : List Artifact}
    {a : Artifact}
    (hreports : ∀ r ∈ reports, ∃ path text, r = FileReport.ofText conventions (.emit backend) path text)
    (hrun : writeReports isQuiet skipsUnchanged label folder reports console = .ok () console')
    (hartifacts : reports.flatMap FileReport.artifacts = before ++ a :: after)
    (hlast : ∀ b ∈ after, b.className ≠ a.className) :
    ∃ way, console.files.folder? folder = some way ∧
      console'.files.text? (way ++ Path.split a.fileName) = some a.contents := by
  have hnamed (b : Artifact) (hb : b ∈ reports.flatMap FileReport.artifacts) : b.Named backend := by
    obtain ⟨r, hr, hb⟩ := List.mem_flatMap.mp hb
    obtain ⟨path, text, rfl⟩ := hreports r hr
    exact FileReport.named_ofText conventions path text b hb
  rw [hartifacts] at hnamed
  rcases written_of_writeReports reports () console' hrun with rfl | ⟨way, hway, hwritten⟩
  · simp at hartifacts
  · refine ⟨way, hway, ?_⟩
    have hothers (b : Artifact) (hb : b ∈ after) : way ++ Path.split b.fileName ≠ way ++ Path.split a.fileName := by
      intro hsame
      have hfile : b.fileName = a.fileName := Path.split_inj (List.append_cancel_left hsame)
      exact hlast b hb (Artifact.className_inj (hnamed b (by simp [hb])) (hnamed a (by simp)) hfile)
    rw [hwritten, hartifacts, List.foldl_append, List.foldl_cons, foldl_written_of_not_mem hothers]
    exact Function.update_self _ _ _

open CommandLine in
/-- Two classes of one name have one file, which the later one is in. -/
example :
    let text := "partial class A : ReactiveObjectBase \x7b \x7d"
    let reports := [text, "using B; " ++ text].map (FileReport.ofText default (.emit .source) "a.rxd")
    let artifacts := reports.flatMap FileReport.artifacts
    let console := final (writeReports true false "Generated" "out" reports ⟨⟨[]⟩, "", ""⟩)
    artifacts.map Artifact.fileName = ["A.reactive.g.cs", "A.reactive.g.cs"] ∧
      console.files.entries = (artifacts.drop 1).map fun a => (["out", "A.reactive.g.cs"], a.contents) := by
  decide +kernel

open CommandLine in
/-- If no two classes have the same full name, all that was generated is there. -/
theorem every_output_kept {conventions : Conventions} {backend : Backend} {reports : List FileReport}
    {isQuiet skipsUnchanged : Bool} {label folder : String} {console console' : Console}
    (hreports : ∀ r ∈ reports, ∃ path text, r = FileReport.ofText conventions (.emit backend) path text)
    (hrun : writeReports isQuiet skipsUnchanged label folder reports console = .ok () console')
    (hdistinct : ((reports.flatMap FileReport.artifacts).map Artifact.className).Nodup) :
    ∀ r ∈ reports, ∀ a ∈ r.artifacts, ∃ way, console.files.folder? folder = some way ∧
      console'.files.text? (way ++ Path.split a.fileName) = some a.contents := by
  intro r hr a ha
  obtain ⟨before, after, hartifacts⟩ := List.append_of_mem (List.mem_flatMap.mpr ⟨r, hr, ha⟩)
  refine last_output_kept hreports hrun hartifacts fun b hb hsame => ?_
  rw [hartifacts, List.map_append, List.map_cons, List.nodup_append, List.nodup_cons] at hdistinct
  exact hdistinct.2.1.1 (hsame ▸ List.mem_map_of_mem hb)

end Reactive
