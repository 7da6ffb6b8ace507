import Reactive.Analysis.Command
import Reactive.Analysis.Derived
import Reactive.Analysis.Locale
import Reactive.Analysis.Mutable
import Reactive.Annotation.Extract

/-!
# Reactive.Analysis — from declarations to class models

A class is analyzed if it is reactive and partial.  What is found wrong with a member keeps that member from being
generated, or simplifies it, and leaves the others alone.
-/

namespace Reactive

/-- The models of the classes of a file, and everything found, in order. -/
structure Analysis where
  models : List ClassModel
  findings : List Finding
deriving Repr

namespace Analysis

/-- Some finding is an error. -/
def hasErrors (a : Analysis) : Bool := a.findings.any (!·.isWarning)

/-- The number of errors. -/
def errorCount (a : Analysis) : Nat := a.findings.countP (!·.isWarning)

/-- The number of warnings. -/
def warningCount (a : Analysis) : Nat := a.findings.countP (·.isWarning)

end Analysis

/-- The name of a change hook. -/
def isHookName (name : String) : Bool :=
  let cs := name.toList
  "On".toList.isPrefixOf cs && ("Changing".toList.isSuffixOf cs || "Changed".toList.isSuffixOf cs)

/-- The change hooks that a class implements. -/
def declaredHooks (c : ClassDecl) : List String :=
  (c.members.filter fun m => (m.method?.map (·.body.isSome)).getD false && isHookName m.name).map MemberDecl.name

/-- Each member with its annotations, and what is found about them. -/
def annotatedMembers (c : ClassDecl) : List (MemberDecl × List Annotation) × List Finding :=
  let extracted := c.members.map fun m => (m, Annotation.ofMember m)
  (extracted.map fun e => (e.1, e.2.1), extracted.flatMap fun e => e.2.2)

namespace Drafting

/-- The model of a reactive and partial class. -/
def classModel (s : DeclarationSet) (c : ClassDecl) : Drafting ClassModel := do
  c.members.forM declare
  let (records, findings) := annotatedMembers c
  modify fun d => { d with findings := d.findings ++ findings }
  let mutableProperties ← mutableProperties records
  let section_ ← derivedSection c records
  let commands ← commands records
  let localeGroups ← localeGroups records []
  return {
    header :=
      ⟨c.name, s.file.namespaceName, s.file.usings, c.typeParams, accessibility c.modifiers,
        c.modifiers.contains .abstract⟩
    derivesExtensibleBase := s.derivesExtensibleBase c
    initMethod := s.conventions.initMethod
    members := (← get).members
    mutableProperties
    derived := section_.derived
    graph := section_.graph
    statics := section_.statics
    commands
    localeGroups
    declaredHooks := declaredHooks c
    span := c.nameSpan }

end Drafting

namespace DeclarationSet

/-- The model of a class, if it is to receive members, and what is found in it. -/
def analyzeClass (s : DeclarationSet) (c : ClassDecl) : Option ClassModel × List Finding :=
  if !s.isReactive c then (none, [])
  else if !c.modifiers.contains .partial_ then (none, [⟨.notExtensible c.name, c.nameSpan⟩])
  else
    let (model, draft) := (Drafting.classModel s c).run ⟨[], declaredNames c, []⟩
    (some model, draft.findings)

/-- The models of all classes that are to receive members, and everything found. -/
def analyze (s : DeclarationSet) : Analysis :=
  let results := s.file.classes.map s.analyzeClass
  ⟨results.filterMap Prod.fst, results.flatMap Prod.snd⟩

end DeclarationSet

end Reactive
