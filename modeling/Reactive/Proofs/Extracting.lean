import Reactive.Annotation.Extract
import Reactive.Proofs.Keyed
import Reactive.Proofs.Overloading

/-!
# Reactive.Proofs.Extracting — what the annotations of a member say

* `Bindable kind use`: the arguments of a use of an annotation can be bound.  `Says member kind use a`: the annotation
  has the arguments of the use, each once and in their order.
* `Refuses kind use member f`: a finding says of a use why its arguments cannot be bound.  One of the two happens
  (`bind_cases`).
* `Extracted`: a member has an annotation for each kind that is used on it.  `Dropped`: it has none.  The attributes are
  read one after another (`ofAttributes_cases`), each adding to what has been extracted of those before it, and
  `extracted_or_dropped` is what comes of all of them.
-/

namespace Reactive

/-! ### The arguments of a use -/

/-- The positional ones of arguments. -/
def positionalArgs (args : List AttributeArg) : List Constant := (args.filter (·.name.isNone)).map AttributeArg.value

/-- The named ones of arguments. -/
def namedArgs (args : List AttributeArg) : List (String × Constant) := args.filterMap fun a => a.name.map (·, a.value)

/-- Named arguments are of the types of their parameters, and stand behind the positional ones. -/
structure Shape.WellFormed (s : Shape) (args : List AttributeArg) : Prop where
  ordered : args.Pairwise fun a b => b.name = none → a.name = none
  named : ∀ e ∈ namedArgs args, ∃ p, s.named? e.1 = some p ∧ p.type.accepts e.2 = true

namespace Annotation

/-- The arguments of a use can be bound: to parameters of their names, and to those of a constructor. -/
structure Bindable (kind : AnnotationKind) (use : Attribute) : Prop where
  wellFormed : kind.shape.WellFormed use.args
  accepted : ∃ ps ∈ kind.shape.constructors, Shape.Accepts ps (positionalArgs use.args)

/-- What is said of a use whose arguments cannot be bound, and why that is so. -/
inductive Refuses (kind : AnnotationKind) (use : Attribute) (member : String) : Finding → Prop
  | misplaced {before after : List AttributeArg} {arg earlier : AttributeArg}
      (split : use.args = before ++ arg :: after) (positional : arg.name = none) (mem : earlier ∈ before)
      (named : earlier.name ≠ none) :
      Refuses kind use member (invalidArguments use member .positionalAfterNamed arg.span)
  | unknown {name : String} {value : Constant} {span : Span} (mem : ⟨some name, value, span⟩ ∈ use.args)
      (missing : kind.shape.named? name = none) :
      Refuses kind use member (invalidArguments use member (.unknownNamed name) span)
  | wrongType {name : String} {value : Constant} {span : Span} {p : Parameter}
      (mem : ⟨some name, value, span⟩ ∈ use.args) (found : kind.shape.named? name = some p)
      (mistyped : p.type.accepts value = false) :
      Refuses kind use member (invalidArguments use member (.wrongType name p.type.text value.text) span)
  | tooMany {most : Nat} (bounded : kind.shape.maxPositional? = some most)
      (more : most < (positionalArgs use.args).length) :
      Refuses kind use member
        (invalidArguments use member (.tooManyPositional most (positionalArgs use.args).length) use.span)
  | noConstructor (rejected : ∀ ps ∈ kind.shape.constructors, ¬ Shape.Accepts ps (positionalArgs use.args)) :
      Refuses kind use member ⟨.noConstructor kind.text member, use.span⟩

variable {kind : AnnotationKind} {use : Attribute} {member : String} {f : Finding}

/-- A use that is refused cannot be bound. -/
theorem Refuses.not_bindable (h : Refuses kind use member f) : ¬ Bindable kind use := by
  rintro ⟨⟨hordered, hnamed⟩, ps, hps, haccepts⟩
  have hmem {name : String} {value : Constant} {span : Span} (h : ⟨some name, value, span⟩ ∈ use.args) :
      (name, value) ∈ namedArgs use.args := List.mem_filterMap.mpr ⟨_, h, rfl⟩
  cases h with
  | misplaced split positional mem named =>
    rw [split] at hordered
    exact named ((List.pairwise_append.mp hordered).2.2 _ mem _ List.mem_cons_self positional)
  | unknown mem missing =>
    obtain ⟨p, hp, -⟩ := hnamed _ (hmem mem)
    rw [missing] at hp
    cases hp
  | wrongType mem found mistyped =>
    obtain ⟨p, hp, htyped⟩ := hnamed _ (hmem mem)
    rw [found] at hp
    cases hp
    rw [mistyped] at htyped
    cases htyped
  | tooMany bounded more => exact absurd more (Nat.not_lt.mpr (Shape.length_le_of_maxPositional? bounded hps haccepts))
  | noConstructor rejected => exact rejected ps hps haccepts

/-- The annotation that a use is bound to has the arguments of the use: the positional ones, in their order, in the
parameters of the first constructor that accepts them, and the named ones as they are. -/
structure Says (member : String) (kind : AnnotationKind) (use : Attribute) (a : Annotation) : Prop where
  bound : kind.shape.FirstBinds (positionalArgs use.args) a.positional
  items : a.positional.flatMap (·.2.items) = positionalArgs use.args
  named : a.named = namedArgs use.args
  kind : a.kind = kind
  target : a.target = member
  span : a.span = use.span

theorem positionalArgs_append (args args' : List AttributeArg) :
    positionalArgs (args ++ args') = positionalArgs args ++ positionalArgs args' := by
  simp [positionalArgs]

theorem namedArgs_append (args args' : List AttributeArg) :
    namedArgs (args ++ args') = namedArgs args ++ namedArgs args' := List.filterMap_append

theorem namedArgs_eq_nil {args : List AttributeArg} : namedArgs args = [] ↔ ∀ a ∈ args, a.name = none := by
  simp [namedArgs, List.filterMap_eq_nil_iff]

/-- One more argument that is well formed. -/
theorem wellFormed_concat {s : Shape} {args : List AttributeArg} {arg : AttributeArg} (h : s.WellFormed args)
    (hordered : arg.name = none → ∀ a ∈ args, a.name = none)
    (hnamed : ∀ name, arg.name = some name → ∃ p, s.named? name = some p ∧ p.type.accepts arg.value = true) :
    s.WellFormed (args ++ [arg]) := by
  refine ⟨List.pairwise_append.mpr ⟨h.ordered, List.pairwise_singleton .., ?_⟩, ?_⟩
  · intro a ha b hb hnone
    rw [List.mem_singleton.mp hb] at hnone
    exact hordered hnone a ha
  · intro e he
    rw [namedArgs_append, List.mem_append] at he
    obtain he | he := he
    · exact h.named e he
    · obtain ⟨a, ha, hname⟩ := List.mem_filterMap.mp he
      obtain rfl := List.mem_singleton.mp ha
      obtain ⟨name, hsome, rfl⟩ := Option.map_eq_some_iff.mp hname
      exact hnamed name hsome

/-- Arguments are read one after another, up to the first that does not fit those before it. -/
theorem splitArgs_cases (member : String) {done args : List AttributeArg} (hargs : use.args = done ++ args)
    (hdone : kind.shape.WellFormed done) :
    (kind.shape.WellFormed use.args ∧ splitArgs kind.shape use member args (positionalArgs done) (namedArgs done) =
      .ok (positionalArgs use.args, namedArgs use.args)) ∨
    ∃ f, Refuses kind use member f ∧
      splitArgs kind.shape use member args (positionalArgs done) (namedArgs done) = .error f := by
  induction args generalizing done with
  | nil =>
    rw [List.append_nil] at hargs
    rw [hargs]
    exact Or.inl ⟨hdone, rfl⟩
  | cons arg args ih =>
    have hmem : arg ∈ use.args := by simp [hargs]
    have hmore : use.args = (done ++ [arg]) ++ args := by simp [hargs]
    obtain ⟨name, value, span⟩ := arg
    have hpositional := positionalArgs_append done [⟨name, value, span⟩]
    have hnamed := namedArgs_append done [⟨name, value, span⟩]
    cases name with
    | none =>
      rw [splitArgs]
      by_cases hempty : (namedArgs done).isEmpty = true
      · have hplain := namedArgs_eq_nil.mp (List.isEmpty_iff.mp hempty)
        have hnext := ih hmore (wellFormed_concat hdone (fun _ => hplain) nofun)
        rw [hpositional, hnamed, show namedArgs [⟨none, value, span⟩] = [] from rfl, List.append_nil] at hnext
        rw [if_pos hempty]
        exact hnext
      · have hsome : ¬ ∀ a ∈ done, a.name = none := by
          rwa [← namedArgs_eq_nil, ← List.isEmpty_iff]
        obtain ⟨earlier, hearlier, hname⟩ : ∃ a ∈ done, a.name ≠ none := by simpa using hsome
        rw [if_neg hempty]
        exact Or.inr ⟨_, .misplaced hargs rfl hearlier hname, rfl⟩
    | some name =>
      rw [splitArgs]
      cases hfound : kind.shape.named? name with
      | none => exact Or.inr ⟨_, .unknown hmem hfound, rfl⟩
      | some p =>
        dsimp only
        by_cases htyped : p.type.accepts value = true
        · have hfits : ∀ n, some name = some n → ∃ p, kind.shape.named? n = some p ∧ p.type.accepts value = true := by
            rintro _ ⟨⟩
            exact ⟨p, hfound, htyped⟩
          have hnext := ih hmore (wellFormed_concat hdone nofun hfits)
          rw [hpositional, hnamed, show positionalArgs [⟨some name, value, span⟩] = [] from rfl, List.append_nil]
            at hnext
          rw [if_pos htyped]
          exact hnext
        · rw [if_neg htyped]
          exact Or.inr ⟨_, .wrongType hmem hfound (by simpa using htyped), rfl⟩

/-- The annotation of a use whose named arguments are well formed, if a constructor accepts the positional ones. -/
def constructed (kind : AnnotationKind) (use : Attribute) (member : String) : Except Finding Annotation :=
  match kind.shape.bindPositional? (positionalArgs use.args) with
  | some positional => .ok ⟨kind, member, positional, namedArgs use.args, use.span⟩
  | none => .error ⟨.noConstructor kind.text member, use.span⟩

theorem constructed_cases (member : String) (hformed : kind.shape.WellFormed use.args) :
    (Bindable kind use ∧ ∃ a, Says member kind use a ∧ constructed kind use member = .ok a) ∨
      ∃ f, Refuses kind use member f ∧ constructed kind use member = .error f := by
  unfold constructed
  cases hbound : kind.shape.bindPositional? (positionalArgs use.args) with
  | none => exact Or.inr ⟨_, .noConstructor (Shape.bindPositional?_eq_none.mp hbound), rfl⟩
  | some bound =>
    have hfirst := Shape.bindPositional?_eq_some.mp hbound
    obtain ⟨before, ps, after, hsplit, -, hbinds⟩ := id hfirst
    have hps : ps ∈ kind.shape.constructors := by simp [hsplit]
    have hbindable : Bindable kind use := ⟨hformed, ps, hps, Shape.exists_binds.mp ⟨bound, hbinds⟩⟩
    exact Or.inl ⟨hbindable, _, ⟨hfirst, hbinds.items, rfl, rfl, rfl, rfl⟩, rfl⟩

/-- A use is bound, or refused. -/
theorem bind_cases (kind : AnnotationKind) (use : Attribute) (member : String) :
    (Bindable kind use ∧ ∃ a, Says member kind use a ∧ bind kind use member = .ok a) ∨
      ∃ f, Refuses kind use member f ∧ bind kind use member = .error f := by
  have hargs : use.args = [] ++ use.args := rfl
  have hnil : kind.shape.WellFormed [] := ⟨.nil, nofun⟩
  unfold bind
  obtain ⟨hformed, hok⟩ | ⟨f, hrefused, herror⟩ := splitArgs_cases member hargs hnil
  · rw [show splitArgs kind.shape use member use.args [] [] = _ from hok]
    cases hmost : kind.shape.maxPositional? with
    | none => exact constructed_cases member hformed
    | some most =>
      by_cases hmany : (positionalArgs use.args).length > most
      · refine Or.inr ⟨_, .tooMany hmost hmany, ?_⟩
        simp only [Bind.bind, Except.bind, if_pos hmany]
        rfl
      · simp only [Bind.bind, Except.bind, if_neg hmany]
        exact constructed_cases member hformed
  · refine Or.inr ⟨f, hrefused, ?_⟩
    rw [show splitArgs kind.shape use member use.args [] [] = .error f from herror]
    rfl

/-! ### The uses on a member -/

/-- Attributes that are uses of annotations, with the kinds of these. -/
def recognized (uses : List Attribute) : List (AnnotationKind × Attribute) :=
  uses.filterMap fun use => (AnnotationKind.ofName? use.name).map (·, use)

/-- A further use of a kind whose first one is `first`. -/
def repeated (member : String) (kind : AnnotationKind) (use first : Attribute) : Finding :=
  ⟨.repeatedUse kind.text member first.span, use.span⟩

/-- What is found about the further uses of kinds: each use that has one of its kind before it is reported with the
first of these. -/
def repeats (member : String) (uses : List (AnnotationKind × Attribute)) : List Finding :=
  uses.zipIdx.filterMap fun ((kind, use), i) => ((uses.take i).lookup kind).map (repeated member kind use)

theorem repeats_concat (member : String) (uses : List (AnnotationKind × Attribute)) (kind : AnnotationKind)
    (use : Attribute) : repeats member (uses ++ [(kind, use)]) =
      repeats member uses ++ ((uses.lookup kind).map (repeated member kind use)).toList := by
  unfold repeats
  rw [List.zipIdx_append, List.filterMap_append]
  congr 1
  · refine List.filterMap_congr fun ((kind', use'), i) hu => ?_
    have hlt : i < uses.length + 0 := List.snd_lt_of_mem_zipIdx hu
    dsimp only
    rw [List.take_append_of_le_length (Nat.le_of_lt hlt)]
  · have htake : (uses ++ [(kind, use)]).take uses.length = uses := List.take_left
    rw [Nat.zero_add, List.zipIdx_singleton, List.filterMap_cons, List.filterMap_nil]
    dsimp only
    rw [htake]
    cases uses.lookup kind <;> rfl

/-- The annotations that are made of uses, and what is found: an annotation for each kind, which says the first use of
that kind, and a finding for each further use. -/
structure Extracted (member : String) (uses : List (AnnotationKind × Attribute)) (as : List Annotation)
    (found : List Finding) : Prop where
  bindable : ∀ kind use, uses.lookup kind = some use → Bindable kind use
  kinds : as.map Annotation.kind = (uses.map Prod.fst).eraseDups
  said : ∀ a ∈ as, ∃ use, uses.lookup a.kind = some use ∧ Says member a.kind use a
  found_eq : found = repeats member uses

/-- What is found about uses of which no annotations are made: the first use of some kind cannot be bound, while those
before it can. -/
inductive Dropped (member : String) (uses : List (AnnotationKind × Attribute)) (found : List Finding) : Prop
  | refused {before after : List (AnnotationKind × Attribute)} {kind : AnnotationKind} {use : Attribute} {f : Finding}
      (split : uses = before ++ (kind, use) :: after)
      (bindable : ∀ kind use, before.lookup kind = some use → Bindable kind use)
      (first : before.lookup kind = none) (unbindable : ¬ Bindable kind use) (refuses : Refuses kind use member f)
      (found_eq : found = repeats member before ++ [f])

/-! ### Reading the uses one after another -/

section

variable {β : Type} {bs : List (AnnotationKind × β)} {b : β} {k : AnnotationKind}

theorem lookup_concat : (bs ++ [(kind, b)]).lookup k = (bs.lookup k).or (if k = kind then some b else none) := by
  rw [List.lookup_append]
  congr 1
  by_cases hk : k = kind
  · simp [hk]
  · rw [if_neg hk, List.lookup_eq_none_iff]
    simpa using hk

/-- What is behind the first of a kind is not looked up. -/
theorem lookup_concat_of_some {first : β} (h : bs.lookup kind = some first) :
    (bs ++ [(kind, b)]).lookup k = bs.lookup k := by
  rw [lookup_concat]
  by_cases hk : k = kind
  · rw [hk, h, Option.some_or]
  · rw [if_neg hk, Option.or_none]

theorem not_mem_of_lookup (h : bs.lookup kind = none) : kind ∉ bs.map Prod.fst := by
  intro hmem
  obtain ⟨u, hu, rfl⟩ := List.mem_map.mp hmem
  simpa using List.lookup_eq_none_iff.mp h u hu

theorem mem_of_lookup (h : bs.lookup kind = some b) : kind ∈ bs.map Prod.fst := by
  obtain ⟨before, after, rfl, -⟩ := List.lookup_eq_some_iff.mp h
  simp

end

namespace Extracted

variable {uses after : List (AnnotationKind × Attribute)} {as : List Annotation} {found : List Finding}
  {first : Attribute}

theorem nil (member : String) : Extracted member [] [] [] := ⟨nofun, rfl, nofun, rfl⟩

/-- A further use of a kind. -/
theorem again (h : Extracted member uses as found) (hfirst : uses.lookup kind = some first) (use : Attribute) :
    Extracted member (uses ++ [(kind, use)]) as (found ++ [repeated member kind use first]) := by
  refine ⟨fun k u hu => ?_, ?_, fun a ha => ?_, ?_⟩
  · rw [lookup_concat_of_some hfirst] at hu
    exact h.bindable k u hu
  · rw [List.map_append, List.map_singleton, eraseDups_concat, if_pos (List.mem_eraseDups.mpr (mem_of_lookup hfirst))]
    exact h.kinds
  · rw [lookup_concat_of_some hfirst]
    exact h.said a ha
  · rw [repeats_concat, hfirst, ← h.found_eq]
    rfl

/-- The first use of a kind, which can be bound. -/
theorem bound (h : Extracted member uses as found) (hnew : uses.lookup kind = none) (hbindable : Bindable kind use)
    {a : Annotation} (ha : Says member kind use a) :
    Extracted member (uses ++ [(kind, use)]) (as ++ [a]) found := by
  have hold {k : AnnotationKind} {u : Attribute} (hu : uses.lookup k = some u) :
      (uses ++ [(kind, use)]).lookup k = some u := by
    rw [lookup_concat, hu, Option.some_or]
  have hown : (uses ++ [(kind, use)]).lookup kind = some use := by
    rw [lookup_concat, hnew, if_pos rfl, Option.none_or]
  refine ⟨fun k u hu => ?_, ?_, fun b hb => ?_, ?_⟩
  · by_cases hk : k = kind
    · subst hk
      rw [hown] at hu
      cases hu
      exact hbindable
    · rw [lookup_concat, if_neg hk, Option.or_none] at hu
      exact h.bindable k u hu
  · rw [List.map_append, List.map_append, List.map_singleton, List.map_singleton, eraseDups_concat, h.kinds, ha.kind,
      if_neg fun hmem => not_mem_of_lookup hnew (List.mem_eraseDups.mp hmem)]
  · obtain hb | hb := List.mem_append.mp hb
    · obtain ⟨u, hu, hsays⟩ := h.said b hb
      exact ⟨u, hold hu, hsays⟩
    · obtain rfl := List.mem_singleton.mp hb
      rw [ha.kind]
      exact ⟨use, hown, ha⟩
  · rw [repeats_concat, hnew, ← h.found_eq]
    simp

/-- The first use of a kind, which cannot be bound. -/
theorem dropped (h : Extracted member uses as found) (hnew : uses.lookup kind = none)
    (hrefuses : Refuses kind use member f) : Dropped member (uses ++ (kind, use) :: after) (found ++ [f]) :=
  .refused rfl h.bindable hnew hrefuses.not_bindable hrefuses (by rw [h.found_eq])

end Extracted

/-- Attributes are read one after another, with the annotations that are made of those before them. -/
theorem ofAttributes_cases {uses : List (AnnotationKind × Attribute)} {as : List Annotation} {found : List Finding}
    {attributes : List Attribute} {seen : List (AnnotationKind × Span)} (h : Extracted member uses as found)
    (hseen : ∀ kind, seen.lookup kind = (uses.lookup kind).map Attribute.span) :
    (∃ more, (ofAttributes member attributes seen).1 = some more ∧ Extracted member (uses ++ recognized attributes)
      (as ++ more) (found ++ (ofAttributes member attributes seen).2)) ∨
    ((ofAttributes member attributes seen).1 = none ∧
      Dropped member (uses ++ recognized attributes) (found ++ (ofAttributes member attributes seen).2)) := by
  induction attributes generalizing uses as found seen with
  | nil =>
    refine Or.inl ⟨[], rfl, ?_⟩
    simpa [recognized, ofAttributes] using h
  | cons use attributes ih =>
    rw [ofAttributes]
    cases hkind : AnnotationKind.ofName? use.name with
    | none =>
      have hrecognized : recognized (use :: attributes) = recognized attributes := by simp [recognized, hkind]
      rw [hrecognized]
      exact ih h hseen
    | some kind =>
      have hrecognized (before : List (AnnotationKind × Attribute)) : before ++ recognized (use :: attributes) =
          before ++ [(kind, use)] ++ recognized attributes := by simp [recognized, hkind]
      dsimp only
      cases hlookup : uses.lookup kind with
      | some first =>
        rw [hseen, hlookup, hrecognized]
        have hseen' : ∀ k, seen.lookup k = ((uses ++ [(kind, use)]).lookup k).map Attribute.span := by
          intro k
          rw [hseen, lookup_concat_of_some hlookup]
        have hnext := ih (h.again hlookup use) hseen'
        rw [List.append_assoc found, List.singleton_append] at hnext
        exact hnext
      | none =>
        rw [hseen, hlookup]
        dsimp only [Option.map_none]
        obtain ⟨hbindable, a, hsays, hbind⟩ | ⟨f, hrefuses, hbind⟩ := bind_cases kind use member
        · rw [hbind, hrecognized]
          have hseen' : ∀ k, (seen ++ [(kind, use.span)]).lookup k =
              ((uses ++ [(kind, use)]).lookup k).map Attribute.span := by
            intro k
            rw [lookup_concat, lookup_concat, hseen]
            split <;> cases uses.lookup k <;> rfl
          obtain ⟨more, hmore, hextracted⟩ | ⟨hnone, hdropped⟩ := ih (h.bound hlookup hbindable hsays) hseen'
          · refine Or.inl ⟨a :: more, by dsimp only; rw [hmore]; rfl, ?_⟩
            rw [List.append_assoc as, List.singleton_append] at hextracted
            exact hextracted
          · exact Or.inr ⟨by dsimp only; rw [hnone]; rfl, hdropped⟩
        · rw [hbind]
          refine Or.inr ⟨rfl, ?_⟩
          have hsplit : recognized (use :: attributes) = (kind, use) :: recognized attributes := by
            simp [recognized, hkind]
          rw [hsplit]
          exact h.dropped hlookup hrefuses

/-- **The annotations of a member.**  A shape binds arguments exactly if one of its constructors accepts them.  A member
has an annotation for each kind of annotation that is used on it, in the order of the first uses; each says the first
use of its kind, and the further uses are reported, one finding for each.  Or else it has none: then the arguments of
the first use of some kind cannot be bound, which is reported last, behind the further uses before it, and is all that
is reported besides these. -/
theorem extracted_or_dropped (s : Shape) (values : List Constant) (m : MemberDecl) :
    (s.bindPositional? values = none ↔ ∀ ps ∈ s.constructors, ¬ Shape.Accepts ps values) ∧
    (Extracted m.name (recognized m.attributes) (ofMember m).1 (ofMember m).2 ∨
      ((ofMember m).1 = [] ∧ Dropped m.name (recognized m.attributes) (ofMember m).2)) := by
  refine ⟨Shape.bindPositional?_eq_none, ?_⟩
  have hseen : ∀ kind, ([] : List (AnnotationKind × Span)).lookup kind =
      (([] : List (AnnotationKind × Attribute)).lookup kind).map Attribute.span := fun _ => rfl
  unfold ofMember
  dsimp only
  obtain ⟨as, has, hextracted⟩ | ⟨hnone, hdropped⟩ := ofAttributes_cases (Extracted.nil m.name) hseen
  · rw [has]
    exact Or.inl hextracted
  · rw [hnone]
    exact Or.inr ⟨rfl, hdropped⟩

end Annotation

end Reactive
