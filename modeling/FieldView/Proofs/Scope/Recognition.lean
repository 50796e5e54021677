import FieldView.Proofs.Scope.Shape
import FieldView.Proofs.Token.Grammar
import FieldView.Scope.Names

/-!
# Which source texts hold one function

The tokens of a text are well laid out, so the parts of a definition can be cut off one by one: the
parameters end at the parenthesis of their own, a statement ends on its line, and a block at the
dedent of its own. With these cuts every way the search for the function can go is one of the few
of `Shape.Searches`, and the texts whose names can be classified are exactly those of the shape
`Shape.Source`.
-/

set_option autoImplicit false

namespace FieldView

open Scope

/-! ## Cuts of a stream -/

namespace Laid

/-- What a written token does to the open brackets. -/
theorem text_cases {k : Kind} {bs bs' : List Bracket} (hk : k.isLayout = false)
    (hnest : nest? bs k = some bs') :
    (∃ b, k = .opening b ∧ bs' = b :: bs) ∨ (∃ b, k = .closing b ∧ bs = b :: bs') ∨
      k.isFlat = true ∧ bs' = bs := by
  cases k with
  | opening b => exact .inl ⟨b, rfl, (Option.some.inj hnest).symm⟩
  | closing b => exact .inr (.inl ⟨b, rfl, nest?_closing_eq_some.mp hnest⟩)
  | newline => cases hk
  | indent => cases hk
  | dedent => cases hk
  | eof => cases hk
  | _ => exact .inr (.inr ⟨rfl, (Option.some.inj hnest).symm⟩)

theorem of_flat {prev : Option Kind} {depth : Nat} {bs : List Bracket} {k : Kind} {ks : List Kind}
    (h : Laid prev depth bs (k :: ks)) (hk : k.isFlat = true) : Laid (some k) depth bs ks := by
  cases h with
  | text hlayout hnest hks =>
    obtain ⟨b, rfl, -⟩ | ⟨b, rfl, -⟩ | ⟨-, rfl⟩ := text_cases hlayout hnest
    · cases hk
    · cases hk
    · exact hks
  | _ => cases hk

/-- After a written token comes the end of its line or another one. -/
theorem after_text {p : Kind} {depth : Nat} {bs : List Bracket} {ks : List Kind}
    (h : Laid (some p) depth bs ks) (hp : p.isLayout = false) :
    (∃ rest, ks = .newline :: rest ∧ bs = [] ∧ Laid (some .newline) depth [] rest) ∨
    ∃ k rest bs', ks = k :: rest ∧ k.isLayout = false ∧ nest? bs k = some bs' ∧
      Laid (some k) depth bs' rest := by
  cases h with
  | newline _ hrest => exact .inl ⟨_, rfl, rfl, hrest⟩
  | text hk hnest hrest => exact .inr ⟨_, _, _, rfl, hk, hnest, hrest⟩
  | eof hprev =>
    obtain hprev | hprev | hprev := hprev
    all_goals cases hprev
    all_goals cases hp
  | indent hprev _ =>
    obtain hprev | hprev := hprev
    all_goals cases hprev
    all_goals cases hp
  | dedent hprev _ =>
    obtain hprev | hprev := hprev
    all_goals cases hprev
    all_goals cases hp

/-- Inside of a bracket a stream is cut where that bracket is closed. -/
theorem cut_group {prev : Option Kind} {depth : Nat} {b : Bracket} {bs : List Bracket}
    {ks : List Kind} (h : Laid prev depth (b :: bs) ks) :
    ∃ inner rest, ks = inner ++ .closing b :: rest ∧ Level (fun _ => true) inner ∧
      Laid (some (.closing b)) depth bs rest := by
  -- By the length of the stream: what follows an inner group is no premise of its bracket's rule.
  induction hsize : ks.length using Nat.strong_induction_on generalizing prev b bs ks with
  | _ size ih =>
    cases h with
    | text hk hnest hmore =>
      rw [List.length_cons] at hsize
      obtain ⟨c, rfl, rfl⟩ | ⟨c, rfl, hbs⟩ | ⟨hflat, rfl⟩ := text_cases hk hnest
      · obtain ⟨group, more, rfl, hgroup, hmore⟩ := ih _ (by omega) hmore rfl
        rw [List.length_append, List.length_cons] at hsize
        obtain ⟨inner, rest, rfl, hinner, hrest⟩ := ih _ (by omega) hmore rfl
        exact ⟨.opening c :: (group ++ .closing c :: inner), rest, by simp,
          .group hgroup hinner, hrest⟩
      · cases hbs
        exact ⟨[], _, rfl, .nil, hmore⟩
      · obtain ⟨inner, rest, rfl, hinner, hrest⟩ := ih _ (by omega) hmore rfl
        exact ⟨_ :: inner, rest, rfl, .flat rfl hflat hinner, hrest⟩

/-- A statement is cut at its end, which lies on the same line. -/
theorem cut_statement {p : Kind} {depth : Nat} {ks : List Kind} (h : Laid (some p) depth [] ks)
    (hp : p.isLayout = false) :
    ∃ body stop rest, ks = body ++ stop :: rest ∧ Level Shape.inStatement body ∧
      (stop = .newline ∨ stop = .punct .semicolon) ∧ Laid (some stop) depth [] rest := by
  induction hsize : ks.length using Nat.strong_induction_on generalizing p ks with
  | _ size ih =>
    obtain ⟨rest, rfl, -, hrest⟩ | ⟨k, more, bs', rfl, hk, hnest, hmore⟩ := h.after_text hp
    · exact ⟨[], .newline, rest, rfl, .nil, .inl rfl, hrest⟩
    · rw [List.length_cons] at hsize
      obtain ⟨b, rfl, rfl⟩ | ⟨b, rfl, hbs⟩ | ⟨hflat, rfl⟩ := text_cases hk hnest
      · obtain ⟨inner, more, rfl, hinner, hmore⟩ := hmore.cut_group
        rw [List.length_append, List.length_cons] at hsize
        obtain ⟨body, stop, rest, rfl, hbody, hstop, hrest⟩ := ih _ (by omega) hmore rfl rfl
        exact ⟨.opening b :: (inner ++ .closing b :: body), stop, rest, by simp,
          .group hinner hbody, hstop, hrest⟩
      · cases hbs
      · by_cases hends : k = .punct .semicolon
        · exact ⟨[], k, more, rfl, .nil, .inr hends, hmore⟩
        · obtain ⟨body, stop, rest, rfl, hbody, hstop, hrest⟩ := ih _ (by omega) hmore hk rfl
          have hin : Shape.inStatement k = true := bne_iff_ne.mpr hends
          exact ⟨k :: body, stop, rest, rfl, .flat hin hflat hbody, hstop, hrest⟩

/-- A line is cut at its end. -/
theorem cut_line {p : Kind} {depth : Nat} {bs : List Bracket} {ks : List Kind}
    (h : Laid (some p) depth bs ks) (hp : p.isLayout = false) :
    ∃ line rest, ks = line ++ .newline :: rest ∧ .newline ∉ line ∧
      Laid (some .newline) depth [] rest := by
  induction ks generalizing p bs with
  | nil => cases h
  | cons k more ih =>
    obtain ⟨rest, hks, -, hrest⟩ | ⟨k', more', bs', hks, hk, hnest, hmore⟩ := h.after_text hp
    · exact ⟨[], rest, hks, List.not_mem_nil, hrest⟩
    · cases hks
      obtain ⟨line, rest, rfl, hline, hrest⟩ := ih hmore hk
      refine ⟨k :: line, rest, rfl, ?_, hrest⟩
      rintro (_ | ⟨_, hmem⟩)
      · cases hk
      · exact hline hmem

/-- A block is cut at the dedent of its own. -/
theorem cut_block {prev : Option Kind} {depth : Nat} {bs : List Bracket} {ks : List Kind}
    (h : Laid prev (depth + 1) bs ks) :
    ∃ body rest, ks = body ++ .dedent :: rest ∧ Shape.Blocks body ∧
      Laid (some .dedent) depth [] rest := by
  induction hsize : ks.length using Nat.strong_induction_on generalizing prev depth bs ks with
  | _ size ih =>
    cases h with
    | newline hk hmore =>
      rw [List.length_cons] at hsize
      obtain ⟨body, rest, rfl, hbody, hrest⟩ := ih _ (by omega) hmore rfl
      exact ⟨.newline :: body, rest, rfl, .inked rfl hbody, hrest⟩
    | indent hprev hmore =>
      rw [List.length_cons] at hsize
      obtain ⟨inner, more, rfl, hinner, hmore⟩ := ih _ (by omega) hmore rfl
      rw [List.length_append, List.length_cons] at hsize
      obtain ⟨body, rest, rfl, hbody, hrest⟩ := ih _ (by omega) hmore rfl
      exact ⟨.indent :: (inner ++ .dedent :: body), rest, by simp, .block hinner hbody, hrest⟩
    | dedent hprev hrest => exact ⟨[], _, rfl, .nil, hrest⟩
    | text hk hnest hmore =>
      rw [List.length_cons] at hsize
      obtain ⟨body, rest, rfl, hbody, hrest⟩ := ih _ (by omega) hmore rfl
      exact ⟨_ :: body, rest, rfl, .inked (Kind.isInked_of_not_isLayout hk) hbody, hrest⟩

/-- A level run leaves blocks and brackets as they are. -/
theorem drop_level {prev : Option Kind} {depth : Nat} {bs : List Bracket} {q : Kind → Bool}
    {ks rest : List Kind} (hks : Level q ks) (h : Laid prev depth bs (ks ++ rest)) :
    ∃ p, Laid p depth bs rest := by
  induction hks generalizing prev bs rest with
  | nil => exact ⟨prev, h⟩
  | flat _ hflat _ ih => exact ih (h.of_flat hflat)
  | @group q b c inner ks _ _ ihinner ih =>
    rw [List.cons_append, List.append_assoc, List.cons_append] at h
    cases h with
    | text hk hnest hmore =>
      cases hnest
      obtain ⟨p, hclose⟩ := ihinner hmore
      cases hclose with
      | text hk' hnest' hmore' =>
        cases nest?_closing_eq_some.mp hnest'
        exact ih hmore'

/-- The suite of a definition is cut where reading goes on. -/
theorem cut_suite {p : Kind} {depth : Nat} {ks : List Kind} (h : Laid (some p) depth [] ks)
    (hp : p.isLayout = false) :
    ∃ tail rest prev, ks = tail ++ rest ∧ Shape.Suite tail ∧ (suite (toks ks)).next = tail.length ∧
      Laid prev depth [] rest := by
  cases hbegins : beginsBlock (toks ks) with
  | false =>
    obtain ⟨line, rest, rfl, hline, hrest⟩ := h.cut_line hp
    refine ⟨line ++ [.newline], rest, _, by simp, .line hline, ?_, hrest⟩
    rw [toks_append, toks_cons] at hbegins
    rw [toks_append, toks_cons, Shape.next_suite_line hline _ hbegins, List.length_append]
    rfl
  | true =>
    obtain ⟨more, rfl⟩ : ∃ more, ks = .newline :: .indent :: more := by
      cases ks with
      | nil => cases hbegins
      | cons k ks =>
        cases ks with
        | nil => cases hbegins
        | cons l ks =>
          simp only [toks_cons, beginsBlock, Kind.kind_bare, Bool.and_eq_true,
            beq_iff_eq] at hbegins
          exact ⟨ks, by rw [hbegins.1, hbegins.2]⟩
    have hinside : Laid (some .indent) (depth + 1) [] more := by
      cases h with
      | newline _ hmore =>
        cases hmore with
        | indent _ hmore => exact hmore
        | text hk _ _ => cases hk
      | text hk _ _ => cases hk
    obtain ⟨body, rest, rfl, hbody, hrest⟩ := hinside.cut_block
    have hcut : .newline :: .indent :: (body ++ .dedent :: rest) =
        Host.blockKinds body ++ rest := by
      simp [Host.blockKinds]
    refine ⟨Host.blockKinds body, rest, _, hcut, .block hbody, ?_, hrest⟩
    rw [hcut, toks_append]
    exact Host.suite_blockKinds hbody.balanced (toks rest)

end Laid

/-! ## Headers -/

namespace Shape

/-- A header behind some lambdas whose colons are still to come. -/
def Pending : Nat → List Kind → Prop
  | 0, ks => Header ks
  | lambdas + 1, ks => ∃ params more, ks = params ++ .punct .colon :: more ∧ Header params ∧
      Pending lambdas more

theorem Header.prepend {before ks : List Kind} (h : Header ks) (hbefore : Level inHeader before) :
    Header (before ++ ks) := by
  cases h with
  | level hks => exact .level (hbefore.append hks)
  | lambda hlevel hparams hks =>
    rw [← List.append_assoc]
    exact .lambda (hbefore.append hlevel) hparams hks

namespace Pending

variable {lambdas : Nat} {ks : List Kind}

theorem prepend {before : List Kind} (h : Pending lambdas ks) (hbefore : Level inHeader before) :
    Pending lambdas (before ++ ks) := by
  cases lambdas with
  | zero => exact Header.prepend h hbefore
  | succ lambdas =>
    obtain ⟨params, more, rfl, hparams, hmore⟩ := h
    exact ⟨before ++ params, more, by simp, hparams.prepend hbefore, hmore⟩

/-- The innermost lambda takes the first colon. -/
theorem lambda (h : Pending (lambdas + 1) ks) : Pending lambdas (.keyword .lambdaKw :: ks) := by
  obtain ⟨params, more, rfl, hparams, hmore⟩ := h
  have hheader : ∀ {body : List Kind}, Header body →
      Header (.keyword .lambdaKw :: (params ++ .punct .colon :: body)) := fun hbody =>
    .lambda (.nil : Level inHeader []) hparams hbody
  cases lambdas with
  | zero => exact hheader hmore
  | succ lambdas =>
    obtain ⟨body, more, rfl, hbody, hmore⟩ := hmore
    exact ⟨_, more, by simp, hheader hbody, hmore⟩

end Pending

/-- **A statement with a colon that belongs to no lambda is cut at the first one.** -/
theorem cut_header {q : Kind → Bool} {line : List Kind} {lambdas : Nat} (h : Level q line)
    (hq : ∀ k, q k = true → inStatement k = true)
    (hcolon : colonFrom 0 lambdas (toks line) < line.length) :
    ∃ header tail, line = header ++ .punct .colon :: tail ∧ Pending lambdas header := by
  induction h generalizing lambdas with
  | nil => cases hcolon
  | @flat q k ks hk hflat _ ih =>
    simp only [toks_cons, colonFrom, Kind.kind_bare, true_and, List.length_cons,
      nest_of_isFlat hflat] at hcolon
    by_cases hlambda : k = .keyword .lambdaKw
    · rw [if_pos hlambda] at hcolon
      obtain ⟨header, tail, rfl, hheader⟩ := ih hq (Nat.lt_of_succ_lt_succ hcolon)
      subst hlambda
      exact ⟨.keyword .lambdaKw :: header, tail, rfl, hheader.lambda⟩
    rw [if_neg hlambda] at hcolon
    by_cases hends : k = .punct .colon
    · subst hends
      cases lambdas with
      | zero => exact ⟨[], ks, rfl, .level .nil⟩
      | succ lambdas =>
        obtain ⟨header, tail, rfl, hheader⟩ := ih hq (Nat.lt_of_succ_lt_succ hcolon)
        exact ⟨.punct .colon :: header, tail, rfl, [], header, rfl, .level .nil, hheader⟩
    · rw [if_neg hends] at hcolon
      obtain ⟨header, tail, rfl, hheader⟩ := ih hq (Nat.lt_of_succ_lt_succ hcolon)
      have hin : inHeader k = true := by
        simp [inHeader, hq k hk, hlambda, hends]
      exact ⟨k :: header, tail, rfl, hheader.prepend (.single hin hflat)⟩
  | @group q b c inner ks hinner _ _ ih =>
    have hgroup : Level inHeader (.opening b :: (inner ++ [.closing c])) := .group hinner .nil
    have hcut : .opening b :: (inner ++ .closing c :: ks) =
        .opening b :: (inner ++ [.closing c]) ++ ks := by
      simp
    rw [hcut, toks_append, List.length_append, (Header.level hgroup).colonFrom_append] at hcolon
    obtain ⟨header, tail, rfl, hheader⟩ := ih hq (Nat.lt_of_add_lt_add_left hcolon)
    refine ⟨.opening b :: (inner ++ [.closing c]) ++ header, tail, by simp, ?_⟩
    exact hheader.prepend hgroup

end Shape

/-! ## Definitions -/

/-- What reading a definition needs first. -/
theorem Scope.exists_of_read {ks : List Kind} {block : FunctionBlock} {size : Nat}
    (h : FunctionBlock.read (toks ks) = .ok (block, size)) :
    ∃ name rest, ks = .ident name :: .opening .paren :: rest := by
  cases ks with
  | nil => cases h
  | cons k ks =>
    cases k with
    | ident name =>
      cases ks with
      | nil => cases h
      | cons l rest =>
        by_cases hl : l = .opening .paren
        · exact ⟨name, rest, by rw [hl]⟩
        · simp only [toks_cons, FunctionBlock.read, Kind.kind_bare, Kind.ident?, hl, if_false] at h
          cases h
    | _ => cases h

/-- **What is read as a definition is one**, and the stream goes on behind it. -/
theorem Laid.cut_named {prev : Option Kind} {ks : List Kind} {block : FunctionBlock} {size : Nat}
    (h : Laid prev 0 [] ks) (hread : FunctionBlock.read (toks ks) = .ok (block, size)) :
    ∃ named rest p, ks = named ++ rest ∧ Shape.Named named ∧ size = named.length ∧
      Laid p 0 [] rest := by
  obtain ⟨name, rest, rfl⟩ := exists_of_read hread
  have hparen : Laid (some (.opening .paren)) 0 [.paren] rest := by
    cases h.of_flat rfl with
    | text _ hnest hrest =>
      cases hnest
      exact hrest
  obtain ⟨params, after, rfl, hparams, hafter⟩ := hparen.cut_group
  obtain ⟨line, stop, more, rfl, hline, hstop, -⟩ := hafter.cut_statement rfl
  simp only [toks_cons, toks_append] at hread
  rw [Shape.read_params hparams] at hread
  simp only [Shape.statementEnd_append hline hstop, take_toks, length_toks] at hread
  by_cases hcolon : colonAt (toks line) < line.length
  · obtain ⟨header, tail, rfl, hheader⟩ := Shape.cut_header hline (fun k hk => hk) hcolon
    rw [List.append_assoc, List.cons_append] at hafter ⊢
    obtain ⟨p, hbehind⟩ := drop_level hheader.level_inStatement hafter
    obtain ⟨body, rest, p, hcut, hsuite, hnext, hrest⟩ := (hbehind.of_flat rfl).cut_suite rfl
    have hat : colonAt (toks (header ++ .punct .colon :: tail)) = header.length := by
      rw [toks_append, toks_cons]
      exact Shape.colonAt_header hheader (toks tail)
    have hdrop : (toks (header ++ .punct .colon :: tail) ++ stop.bare :: toks more).drop
        (header.length + 1) = toks (tail ++ stop :: more) := by
      simp
    rw [if_pos hcolon, hat, hdrop, hnext] at hread
    cases hread
    have hnamed : Shape.Named (.ident name :: .opening .paren ::
        (params ++ .closing .paren :: (header ++ .punct .colon :: body))) :=
      .mk hparams hheader hsuite
    refine ⟨_, rest, p, ?_, hnamed, ?_, hrest⟩
    · rw [hcut]
      simp
    · simp only [List.length_cons, List.length_append]
      omega
  · rw [if_neg hcolon] at hread
    cases hread

/-! ## The search -/

namespace Shape

/-- The ways a search can go: whether there is a definition already, the tokens ahead, and what it
finds wrong in the end. -/
inductive Searches : Bool → List Kind → Option ShapeFault → Prop
  | done : Searches true [.eof] none
  | around {found : Bool} {item ks : List Kind} {fault : Option ShapeFault} :
      Around item → Searches found ks fault → Searches found (item ++ ks) fault
  | first {function ks : List Kind} {fault : Option ShapeFault} :
      Definition function → Searches true ks fault → Searches false (function ++ ks) fault
  | second {function ks : List Kind} :
      Definition function → Searches true (function ++ ks) (some .multiple)
  | refused {found : Bool} {ks : List Kind} (fault : ShapeFault) :
      fault ≠ .multiple → Searches found ks (some fault)

theorem Searches.newline {found : Bool} {ks : List Kind} {fault : Option ShapeFault}
    (h : Searches found ks fault) : Searches found (.newline :: ks) fault :=
  .around (.newline .nil) h

theorem Searches.decorator {found : Bool} {body rest : List Kind} {stop : Kind}
    {fault : Option ShapeFault} (hbody : Level inStatement body)
    (hstop : stop = .newline ∨ stop = .punct .semicolon) (h : Searches found rest fault) :
    Searches found (.punct .atSign :: (body ++ stop :: rest)) fault := by
  have hitem : Around (.punct .atSign :: (body ++ [stop]) ++ []) :=
    .decorator (.mk hbody hstop) .nil
  have hsearch := Searches.around hitem h
  simpa using hsearch

end Shape

open Shape

/-- The search at a definition, of which `lead` is what comes before the name. -/
theorem Laid.searches_definition {prev : Option Kind} {ks : List Kind} (h : Laid prev 0 [] ks)
    (lead : List Kind) (hlead : ∀ named, Named named → Definition (lead ++ named))
    (filename : String) (found : Option FunctionBlock)
    (hbehind : ∀ (p : Option Kind) (rest : List Kind) (block : FunctionBlock),
      rest.length ≤ ks.length → Laid p 0 [] rest →
      Searches true rest (faultOf (findFunction filename (some block) (toks rest)))) :
    Searches found.isSome (lead ++ ks)
      (faultOf (findFunction filename found ((Kind.keyword .defKw).bare :: toks ks))) := by
  rw [findFunction, Kind.kind_bare]
  cases hread : FunctionBlock.read (toks ks) with
  | error culprit => exact .refused .malformed (by decide)
  | ok result =>
    obtain ⟨block, size⟩ := result
    obtain ⟨named, rest, p, rfl, hnamed, rfl, hrest⟩ := h.cut_named hread
    rw [← List.append_assoc]
    cases found with
    | some first => exact .second (hlead named hnamed)
    | none =>
      simp only [toks_append, drop_toks]
      exact .first (hlead named hnamed) (hbehind p rest block (by simp) hrest)

/-- **On a text that is well laid out the search goes one of these ways.** -/
theorem Laid.searches {prev : Option Kind} {ks : List Kind} (h : Laid prev 0 [] ks)
    (filename : String) (found : Option FunctionBlock) :
    Searches found.isSome ks (faultOf (findFunction filename found (toks ks))) := by
  -- The search goes on behind a whole decorator or definition, so by the length of what is ahead.
  induction hsize : ks.length using Nat.strong_induction_on generalizing prev found ks with
  | _ size ih =>
    cases ks with
    | nil => cases h
    | cons k ks =>
      rw [List.length_cons] at hsize
      rw [toks_cons, findFunction, Kind.kind_bare]
      cases k with
      | newline =>
        cases h with
        | newline _ hks => exact (ih _ (by omega) hks found rfl).newline
        | text hk _ _ => cases hk
      | eof =>
        cases h with
        | eof _ =>
          cases found with
          | none => exact .refused .noFunction (by decide)
          | some block => exact .done
        | text hk _ _ => cases hk
      | punct p =>
        cases p with
        | atSign =>
          obtain ⟨body, stop, rest, rfl, hbody, hstop, hrest⟩ := (h.of_flat rfl).cut_statement rfl
          rw [List.length_append, List.length_cons] at hsize
          simp only [toks_append, toks_cons, statementEnd_append hbody hstop, drop_toks_succ]
          exact .decorator hbody hstop (ih _ (by omega) hrest found rfl)
        | _ => exact .refused .otherStatement (by decide)
      | keyword w =>
        cases w with
        | defKw =>
          have hdefinition := (h.of_flat rfl).searches_definition [.keyword .defKw]
            (fun _ hnamed => .plain hnamed) filename found
            fun p rest block hle hrest => ih _ (by omega) hrest (some block) rfl
          rw [findFunction] at hdefinition
          exact hdefinition
        | asyncKw =>
          cases ks with
          | nil => exact .refused .otherStatement (by decide)
          | cons l ks =>
            by_cases hl : l = .keyword .defKw
            · subst hl
              rw [List.length_cons] at hsize
              exact ((h.of_flat rfl).of_flat rfl).searches_definition
                [.keyword .asyncKw, .keyword .defKw] (fun _ hnamed => .async hnamed) filename found
                fun p rest block hle hrest => ih _ (by omega) hrest (some block) rfl
            · simp only [toks_cons, List.head?_cons, Option.any_some, Kind.kind_bare,
                beq_false_of_ne hl, Bool.false_eq_true, if_false]
              exact .refused .otherStatement (by decide)
        | _ => exact .refused .otherStatement (by decide)
      | _ => exact .refused .otherStatement (by decide)

namespace Shape

/-- What is ahead of a search that succeeds. -/
def Remains : Bool → List Kind → Prop
  | true => Around
  | false => Source

/-- What is ahead of a search that counts a second definition. -/
def Repeats : Bool → List Kind → Prop
  | true => fun ks => ∃ between second after, ks = between ++ (second ++ after) ∧
      Around between ∧ Definition second
  | false => Doubled

theorem Searches.remains {found : Bool} {ks : List Kind} {fault : Option ShapeFault}
    (h : Searches found ks fault) (hfault : fault = none) :
    ∃ body, ks = body ++ [.eof] ∧ Remains found body := by
  induction h with
  | done => exact ⟨[], rfl, .nil⟩
  | @around found item ks fault hitem _ ih =>
    obtain ⟨body, rfl, hbody⟩ := ih hfault
    refine ⟨item ++ body, by simp, ?_⟩
    cases found with
    | true => exact hitem.append hbody
    | false =>
      obtain ⟨before, function, after, rfl, hbefore, hfunction, hafter⟩ := hbody
      exact ⟨item ++ before, function, after, by simp, hitem.append hbefore, hfunction, hafter⟩
  | @first function ks fault hfunction _ ih =>
    obtain ⟨body, rfl, hbody⟩ := ih hfault
    exact ⟨function ++ body, by simp, [], function, body, rfl, .nil, hfunction, hbody⟩
  | second _ => cases hfault
  | refused _ _ => cases hfault

theorem Searches.repeats {found : Bool} {ks : List Kind} {fault : Option ShapeFault}
    (h : Searches found ks fault) (hfault : fault = some .multiple) : Repeats found ks := by
  induction h with
  | done => cases hfault
  | @around found item ks fault hitem _ ih =>
    cases found with
    | true =>
      obtain ⟨between, second, after, rfl, hbetween, hsecond⟩ := ih hfault
      exact ⟨item ++ between, second, after, by simp, hitem.append hbetween, hsecond⟩
    | false =>
      obtain ⟨before, first, between, second, after, rfl, hbefore, hrest⟩ := ih hfault
      exact ⟨item ++ before, first, between, second, after, by simp, hitem.append hbefore, hrest⟩
  | @first function ks fault hfunction _ ih =>
    obtain ⟨between, second, after, rfl, hbetween, hsecond⟩ := ih hfault
    exact ⟨[], function, between, second, after, rfl, .nil, hfunction, hbetween, hsecond⟩
  | @second function ks hfunction => exact ⟨[], function, ks, rfl, .nil, hfunction⟩
  | refused fault hne => exact absurd (Option.some.inj hfault) hne

end Shape

/-! ## Texts -/

namespace Scope

section Texts

variable {source : String} {ts : List Token} (filename : String)

theorem faultOf_tokens (ts : List Token) :
    faultOf (findFunction filename none (toks (ts.map (·.kind)))) =
      faultOf (findFunction filename none ts) := by
  rw [← erase_eq_toks]
  exact faultOf_findFunction_erase filename ts rfl

theorem namesOf_eq_ok_iff (h : tokenize source = .ok ts) :
    (∃ names, namesOf source filename = .ok names) ↔
      faultOf (findFunction filename none ts) = none := by
  unfold namesOf
  rw [h]
  cases hfind : findFunction filename none ts with
  | ok block => simp [faultOf, hfind]
  | error e => simp [faultOf, hfind]

theorem namesOf_eq_error_iff (h : tokenize source = .ok ts) (fault : ShapeFault) :
    (∃ e, namesOf source filename = .error (.shape e) ∧ e.fault = fault) ↔
      faultOf (findFunction filename none ts) = some fault := by
  unfold namesOf
  rw [h]
  cases hfind : findFunction filename none ts with
  | ok block => simp [faultOf, hfind]
  | error e => simp [faultOf, hfind]

end Texts

/-- **The names of a text can be classified exactly if it holds one function definition and else
only line ends and decorators.** Any other text that has tokens is refused for its shape, and for a
second definition exactly where two stand side by side, neither of them inside of the other. -/
theorem namesOf_ok_iff_source {source : String} {ts : List Token} (h : tokenize source = .ok ts)
    (filename : String) :
    ∃ body, ts.map (·.kind) = body ++ [.eof] ∧
      ((∃ names, namesOf source filename = .ok names) ↔ Source body) ∧
      (¬ Source body → ∃ e, namesOf source filename = .error (.shape e)) ∧
      ((∃ e, namesOf source filename = .error (.shape e) ∧ e.fault = .multiple) ↔
        Doubled (ts.map (·.kind))) := by
  have hlaid := laid_of_tokenize h
  obtain ⟨body, hbody, -⟩ := hlaid.ends
  have hsearch := hlaid.searches filename none
  have hnone : faultOf (findFunction filename none ts) = none ↔ Source body := by
    rw [← faultOf_tokens]
    constructor
    · intro hfault
      obtain ⟨body', hbody', hsource⟩ := hsearch.remains hfault
      obtain rfl : body = body' := List.append_cancel_right (hbody.symm.trans hbody')
      exact hsource
    · intro hsource
      rw [hbody]
      exact hsource.faultOf_eq filename
  have hmultiple : faultOf (findFunction filename none ts) = some .multiple ↔
      Doubled (ts.map (·.kind)) := by
    rw [← faultOf_tokens]
    exact ⟨hsearch.repeats, fun hdoubled => hdoubled.faultOf_eq filename⟩
  refine ⟨body, hbody, (namesOf_eq_ok_iff filename h).trans hnone, ?_,
    (namesOf_eq_error_iff filename h .multiple).trans hmultiple⟩
  intro hno
  cases hfault : faultOf (findFunction filename none ts) with
  | none => exact absurd (hnone.mp hfault) hno
  | some fault =>
    obtain ⟨e, he, -⟩ := (namesOf_eq_error_iff filename h fault).mpr hfault
    exact ⟨e, he⟩

/-- Two decorators on a line, a lambda in the header, and a function inside of the function. -/
def nestedText : String := "@a;@b\nasync def f(x) -> lambda: x:\n def g(): pass\n"

def nestedKinds : List Kind :=
  [.punct .atSign, .ident "a", .punct .semicolon, .punct .atSign, .ident "b", .newline,
   .keyword .asyncKw, .keyword .defKw, .ident "f", .opening .paren, .ident "x", .closing .paren,
   .punct .arrow, .keyword .lambdaKw, .punct .colon, .ident "x", .punct .colon, .newline, .indent,
   .keyword .defKw, .ident "g", .opening .paren, .closing .paren, .punct .colon,
   .keyword .passKw, .newline, .dedent]

theorem source_nestedKinds : Source nestedKinds := by
  have hbefore : Around ([.punct .atSign, .ident "a", .punct .semicolon] ++
      ([.punct .atSign, .ident "b", .newline] ++ [])) :=
    .decorator (.mk (.single rfl rfl : Level inStatement [.ident "a"]) (.inr rfl))
      (.decorator (.mk (.single rfl rfl : Level inStatement [.ident "b"]) (.inl rfl)) .nil)
  have hheader : Header ([.punct .arrow] ++ .keyword .lambdaKw ::
      ([] ++ .punct .colon :: [.ident "x"])) :=
    .lambda (.single rfl rfl) (.level .nil) (.level (.single rfl rfl))
  have hblocks : Blocks [.keyword .defKw, .ident "g", .opening .paren, .closing .paren,
      .punct .colon, .keyword .passKw, .newline] :=
    .inked rfl (.inked rfl (.inked rfl (.inked rfl (.inked rfl (.inked rfl (.inked rfl .nil))))))
  have hparams : Level (fun _ => true) [.ident "x"] := .single rfl rfl
  exact ⟨_, _, [], rfl, hbefore, .async (.mk hparams hheader (.block hblocks)), .nil⟩

theorem namesOf_ok_nestedText :
    (tokenize nestedText).toOption.map (·.map (·.kind)) = some (nestedKinds ++ [.eof]) ∧
      ∃ names, namesOf nestedText "f.py" = .ok names := by
  have hkinds : (tokenize nestedText).toOption.map (·.map (·.kind)) =
      some (nestedKinds ++ [.eof]) := by
    decide +kernel
  refine ⟨hkinds, ?_⟩
  cases htokens : tokenize nestedText with
  | error e =>
    rw [htokens] at hkinds
    cases hkinds
  | ok ts =>
    rw [htokens] at hkinds
    obtain ⟨body, hbody, hiff, -⟩ := namesOf_ok_iff_source htokens "f.py"
    have hnested : body ++ [.eof] = nestedKinds ++ [.eof] :=
      hbody.symm.trans (Option.some.inj hkinds)
    rw [hiff, List.append_cancel_right hnested]
    exact source_nestedKinds

end Scope

end FieldView
