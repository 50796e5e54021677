import FieldView.Proofs.Host.Compound
import FieldView.Proofs.Scope.Erasure
import FieldView.Proofs.Token.Coverage

/-!
# The shape of a source text

A source text holds one function definition, and around it only line ends and decorators. This file
says so as a grammar over the kinds of tokens: `Shape.Definition` is a definition from its first
word to the end of its suite, `Shape.Around` is what may stand before and behind it, and
`Shape.Source` is the whole text without its end.

Then it is shown what the search for the function does on each shape: `findFunction` goes over
what stands around, takes up a first definition whole and refuses a second one. In particular a
definition inside of the block of another is gone over with that block.

The search is looked at through `faultOf` only, which says whether it succeeds and what it finds
wrong. So neither spans nor the contents of the function matter (`faultOf_findFunction_erase`).
-/

set_option autoImplicit false

namespace FieldView

open Scope

namespace Shape

/-! ## The grammar -/

/-- Whether a token outside of brackets leaves the statement open. -/
def inStatement (k : Kind) : Bool := k != .punct .semicolon

/-- Whether a token outside of brackets leaves a header open and begins no lambda. -/
def inHeader (k : Kind) : Bool :=
  inStatement k && k != .punct .colon && k != .keyword .lambdaKw

/-- Part of a statement in which every colon outside of brackets belongs to a lambda. -/
inductive Header : List Kind → Prop
  | level {ks : List Kind} : Level inHeader ks → Header ks
  | lambda {before params ks : List Kind} : Level inHeader before → Header params → Header ks →
      Header (before ++ .keyword .lambdaKw :: (params ++ .punct .colon :: ks))

/-- Every indent has its own dedent behind it. -/
inductive Blocks : List Kind → Prop
  | nil : Blocks []
  | inked {k : Kind} {ks : List Kind} : k.isInked = true → Blocks ks → Blocks (k :: ks)
  | block {inner ks : List Kind} : Blocks inner → Blocks ks →
      Blocks (.indent :: (inner ++ .dedent :: ks))

/-- What stands behind the colon of a definition: an indented block up to the dedent of its own, or
the rest of the line. -/
inductive Suite : List Kind → Prop
  | block {body : List Kind} : Blocks body → Suite (Host.blockKinds body)
  | line {rest : List Kind} : .newline ∉ rest → Suite (rest ++ [.newline])

/-- A definition behind its `def`. -/
inductive Named : List Kind → Prop
  | mk {name : String} {params header suite : List Kind} :
      Level (fun _ => true) params → Header header → Suite suite →
      Named (.ident name :: .opening .paren ::
        (params ++ .closing .paren :: (header ++ .punct .colon :: suite)))

/-- A function definition. -/
inductive Definition : List Kind → Prop
  | plain {ks : List Kind} : Named ks → Definition (.keyword .defKw :: ks)
  | async {ks : List Kind} : Named ks → Definition (.keyword .asyncKw :: .keyword .defKw :: ks)

/-- A decorator, up to what ends its statement. -/
inductive Decorator : List Kind → Prop
  | mk {body : List Kind} {stop : Kind} : Level inStatement body →
      stop = .newline ∨ stop = .punct .semicolon →
      Decorator (.punct .atSign :: (body ++ [stop]))

/-- What may stand around the definition of a text. -/
inductive Around : List Kind → Prop
  | nil : Around []
  | newline {ks : List Kind} : Around ks → Around (.newline :: ks)
  | decorator {item ks : List Kind} : Decorator item → Around ks → Around (item ++ ks)

/-- Exactly one definition, and nothing else that counts. -/
def Source (ks : List Kind) : Prop :=
  ∃ before function after, ks = before ++ (function ++ after) ∧
    Around before ∧ Definition function ∧ Around after

/-- Two definitions side by side, whatever comes behind them. -/
def Doubled (ks : List Kind) : Prop :=
  ∃ before first between second after, ks = before ++ (first ++ (between ++ (second ++ after))) ∧
    Around before ∧ Definition first ∧ Around between ∧ Definition second

end Shape

namespace Scope

/-! ## The search without spans -/

/-- What a search finds wrong, if anything. -/
def faultOf : Except ShapeError FunctionBlock → Option ShapeFault
  | .ok _ => none
  | .error e => some e.fault

/-- Reading a definition without spans fails where it fails with them, and takes as many tokens. -/
theorem read_erase (ts : List Token) :
    (∃ culprit culprit', FunctionBlock.read ts = .error culprit ∧
      FunctionBlock.read (erase ts) = .error culprit') ∨
    ∃ block block' size, FunctionBlock.read ts = .ok (block, size) ∧
      FunctionBlock.read (erase ts) = .ok (block', size) := by
  unfold FunctionBlock.read
  cases ts with
  | nil => exact .inl ⟨_, _, rfl, rfl⟩
  | cons t ts =>
    simp only [erase_cons, Kind.kind_bare]
    cases t.kind.ident? with
    | none => exact .inl ⟨_, _, rfl, rfl⟩
    | some name =>
      cases ts with
      | nil => exact .inl ⟨_, _, rfl, rfl⟩
      | cons p rest =>
        simp only [erase_cons, Kind.kind_bare, closingAt_erase, drop_erase]
        by_cases hp : p.kind = .opening .paren
        · simp only [hp, if_true]
          cases rest.drop (closingAt rest) with
          | nil => exact .inl ⟨_, _, rfl, rfl⟩
          | cons paren after =>
            simp only [erase_cons, statementEnd, positionFrom_erase, take_erase, colonAt_erase,
              length_erase, drop_erase, next_suite_erase]
            by_cases hcolon : colonAt (after.take (positionFrom endsStatement 0 after)) <
                (after.take (positionFrom endsStatement 0 after)).length
            · simp only [hcolon, if_true]
              exact .inr ⟨_, _, _, rfl, rfl⟩
            · simp only [hcolon, if_false]
              exact .inl ⟨_, _, rfl, rfl⟩
        · simp only [hp, if_false]
          exact .inl ⟨_, _, rfl, rfl⟩

section Search

variable {filename : String} {found found' : Option FunctionBlock} {t : Token} {ts : List Token}

theorem faultOf_answer (hfound : found.isSome = found'.isSome) :
    faultOf (findFunction.answer filename found) =
      faultOf (findFunction.answer filename found') := by
  cases found with
  | none =>
    cases found' with
    | none => rfl
    | some block => cases hfound
  | some block =>
    cases found' with
    | none => cases hfound
    | some block' => rfl

end Search

/-- **What the search finds wrong depends on the kinds of the tokens only.** -/
theorem faultOf_findFunction_erase (filename : String) (ts : List Token)
    {found found' : Option FunctionBlock} (hfound : found.isSome = found'.isSome) :
    faultOf (findFunction filename found (erase ts)) =
      faultOf (findFunction filename found' ts) := by
  cases ts with
  | nil =>
    rw [erase_nil, findFunction, findFunction]
    exact faultOf_answer hfound
  | cons t ts =>
    have hhead := any_head?_erase (· == .keyword .defKw) ts
    rw [erase_cons, findFunction, findFunction, Kind.kind_bare]
    cases t.kind with
    | newline => exact faultOf_findFunction_erase filename ts hfound
    | eof => exact faultOf_answer hfound
    | punct p =>
      cases p with
      | atSign =>
        simp only [statementEnd, positionFrom_erase, drop_erase]
        exact faultOf_findFunction_erase filename (ts.drop (statementEnd ts + 1)) hfound
      | _ => rfl
    | keyword w =>
      cases w with
      | defKw =>
        obtain ⟨culprit, culprit', hread, hread'⟩ | ⟨block, block', size, hread, hread'⟩ :=
          read_erase ts
        · rw [hread, hread']
          rfl
        · rw [hread, hread']
          cases found with
          | none =>
            cases found' with
            | none =>
              simp only [drop_erase]
              exact faultOf_findFunction_erase filename (ts.drop size) rfl
            | some first => cases hfound
          | some first =>
            cases found' with
            | none => cases hfound
            | some first' => rfl
      | asyncKw =>
        simp only [hhead]
        split
        · exact faultOf_findFunction_erase filename ts hfound
        · rfl
      | _ => rfl
    | _ => rfl
termination_by ts.length

end Scope

namespace Shape

/-! ## Positions in a definition -/

variable {ks ls : List Kind}

namespace Header

theorem level_inStatement (h : Header ks) : Level inStatement ks := by
  have hmono : ∀ k, inHeader k = true → inStatement k = true := by
    intro k hk
    simp only [inHeader, Bool.and_eq_true] at hk
    exact hk.1.1
  induction h with
  | level hks => exact hks.mono hmono
  | lambda hbefore _ _ ihparams ih =>
    exact (hbefore.mono hmono).append (.flat rfl rfl (ihparams.append (.flat rfl rfl ih)))

/-- Every lambda of a header meets a colon of its own, so the count of open lambdas is kept. -/
theorem colonFrom_append (h : Header ks) (lambdas : Nat) (rest : List Token) :
    colonFrom 0 lambdas (toks ks ++ rest) = ks.length + colonFrom 0 lambdas rest := by
  have hlevel : ∀ {ks : List Kind}, Level inHeader ks → ∀ (lambdas : Nat) (rest : List Token),
      colonFrom 0 lambdas (toks ks ++ rest) = ks.length + colonFrom 0 lambdas rest :=
    fun hks _ => hks.colonFrom_append (fun _ => .beq rfl rfl) (fun _ => .beq rfl rfl)
  induction h generalizing lambdas rest with
  | level hks => exact hlevel hks lambdas rest
  | @lambda before params ks hbefore _ _ ihparams ih =>
    have hopen : ∀ rest : List Token,
        colonFrom 0 lambdas ((Kind.keyword .lambdaKw).bare :: rest) =
          colonFrom 0 (lambdas + 1) rest + 1 := fun rest => rfl
    have hclose : ∀ rest : List Token,
        colonFrom 0 (lambdas + 1) ((Kind.punct .colon).bare :: rest) =
          colonFrom 0 lambdas rest + 1 := fun rest => rfl
    simp only [toks_append, toks_cons, List.append_assoc, List.cons_append, List.length_append,
      List.length_cons]
    rw [hlevel hbefore, hopen, ihparams, hclose, ih]
    omega

end Header

theorem Blocks.balanced (h : Blocks ks) : Host.BlockBalanced ks := by
  induction h with
  | nil => exact .nil
  | @inked k ks hk _ ih =>
    refine .cons ?_ ih
    intro inner rest
    cases k with
    | indent => cases hk
    | dedent => cases hk
    | eof => cases hk
    | _ =>
      simp only [toks_cons, toks_nil, List.cons_append, List.nil_append, blockEnd, Kind.kind_bare,
        List.length_singleton]
      omega
  | @block inner ks _ _ ihinner ih =>
    intro depth rest
    have hout : blockEnd (depth + 1) (Kind.dedent.bare :: (toks ks ++ rest)) =
        blockEnd depth (toks ks ++ rest) + 1 := rfl
    simp only [toks_cons, toks_append, List.cons_append, List.append_assoc, List.length_cons,
      List.length_append]
    show blockEnd (depth + 1) (toks inner ++ Kind.dedent.bare :: (toks ks ++ rest)) + 1 = _
    rw [ihinner, hout, ih]
    omega

/-- The rest of a line is taken where no block begins. -/
theorem next_suite_line {line : List Kind} (hline : .newline ∉ line) (rest : List Token)
    (hbegins : beginsBlock (toks line ++ Kind.newline.bare :: rest) = false) :
    (suite (toks line ++ Kind.newline.bare :: rest)).next = line.length + 1 := by
  have htake : (toks line ++ Kind.newline.bare :: rest).takeWhile (·.kind != .newline) =
      toks line := by
    rw [List.takeWhile_append_of_pos]
    · simp
    · intro t ht
      obtain ⟨k, hk, rfl⟩ := List.mem_map.mp ht
      simp only [Kind.kind_bare, bne_iff_ne]
      rintro rfl
      exact hline hk
  unfold suite
  rw [hbegins, htake, length_toks]
  rfl

theorem Suite.next_eq (h : Suite ks) (hls : ls.head? ≠ some .indent) :
    (suite (toks ks ++ toks ls)).next = ks.length := by
  cases h with
  | block hbody => exact Host.suite_blockKinds hbody.balanced (toks ls)
  | @line line hline =>
    rw [toks_append, List.append_assoc, List.length_append]
    refine next_suite_line hline (toks ls) ?_
    cases line with
    | nil =>
      cases ls with
      | nil => rfl
      | cons k ls => simpa [beginsBlock] using hls
    | cons k line =>
      have hk : k ≠ .newline := fun h => hline (h ▸ List.mem_cons_self)
      cases line with
      | nil => simp [beginsBlock]
      | cons l line => simp [beginsBlock, hk]

/-! ## Reading a definition -/

theorem statementEnd_append {body : List Kind} {stop : Kind} (hbody : Level inStatement body)
    (hstop : stop = .newline ∨ stop = .punct .semicolon) (rest : List Token) :
    statementEnd (toks body ++ stop.bare :: rest) = body.length := by
  have hends : endsStatement 0 stop = true := by
    obtain rfl | rfl := hstop
    · rfl
    · rfl
  unfold statementEnd
  rw [hbody.positionFrom_append (passes_endsStatement rfl)]
  simp [positionFrom, hends]

/-- Reading a definition whose parameters are closed comes down to its header and its suite. -/
theorem read_params {params : List Kind} (hparams : Level (fun _ => true) params) (name : String)
    (after : List Token) :
    FunctionBlock.read ((Kind.ident name).bare :: (Kind.opening .paren).bare ::
        (toks params ++ (Kind.closing .paren).bare :: after)) =
      let line := after.take (statementEnd after)
      let tail := after.drop (colonAt line + 1)
      if colonAt line < line.length then
        .ok ({ name, params := toks params, body := (suite tail).body tail },
          2 + params.length + 1 + (colonAt line + 1) + (suite tail).next)
      else .error (some (Kind.closing .paren).bare) := by
  unfold FunctionBlock.read
  simp only [Kind.kind_bare, Kind.ident?, if_true, closingAt_append hparams, drop_toks, take_toks]

theorem colonAt_header {header : List Kind} (hheader : Header header) (rest : List Token) :
    colonAt (toks header ++ (Kind.punct .colon).bare :: rest) = header.length := by
  unfold colonAt
  rw [hheader.colonFrom_append]
  rfl

/-- The header of a definition lies in one statement with its colon. -/
theorem take_statementEnd_header {header : List Kind} (hheader : Header header)
    (rest : List Token) :
    ∃ more, (toks header ++ (Kind.punct .colon).bare :: rest).take
        (statementEnd (toks header ++ (Kind.punct .colon).bare :: rest)) =
      toks header ++ (Kind.punct .colon).bare :: more := by
  have hlevel : Level inStatement (header ++ [.punct .colon]) :=
    hheader.level_inStatement.append (.single rfl rfl)
  have hcut : ∀ rest : List Token, toks header ++ (Kind.punct .colon).bare :: rest =
      toks (header ++ [.punct .colon]) ++ rest := by
    intro rest
    simp
  refine ⟨rest.take (positionFrom endsStatement 0 rest), ?_⟩
  unfold statementEnd
  rw [hcut, hcut, hlevel.positionFrom_append (passes_endsStatement rfl), ← length_toks,
    List.take_length_add_append]

/-- **A definition is read whole**, whatever comes behind it as long as it is not an indented
block. -/
theorem Named.read_eq (h : Named ks) (ls : List Kind) :
    ∃ block size, FunctionBlock.read (toks ks ++ toks ls) = .ok (block, size) ∧
      (ls.head? ≠ some .indent → size = ks.length) := by
  obtain @⟨name, params, header, tail, hparams, hheader, htail⟩ := h
  obtain ⟨more, hline⟩ := take_statementEnd_header hheader (toks tail ++ toks ls)
  have hcolon := colonAt_header hheader more
  have hlt : header.length < (toks header ++ (Kind.punct .colon).bare :: more).length := by
    simp
  have hread := read_params hparams name
    (toks header ++ (Kind.punct .colon).bare :: (toks tail ++ toks ls))
  simp only [hline, hcolon, hlt, if_true, drop_toks_succ] at hread
  simp only [toks_cons, toks_append, List.cons_append, List.append_assoc]
  refine ⟨_, _, hread, ?_⟩
  intro hls
  rw [htail.next_eq hls]
  simp only [List.length_cons, List.length_append]
  omega

/-! ## The search over a text -/

theorem Around.append (h : Around ks) (hls : Around ls) : Around (ks ++ ls) := by
  induction h with
  | nil => exact hls
  | newline _ ih => exact .newline ih
  | decorator hitem _ ih =>
    rw [List.append_assoc]
    exact .decorator hitem ih

theorem Around.head?_append (h : Around ks) (hls : ls.head? ≠ some .indent) :
    (ks ++ ls).head? ≠ some .indent := by
  cases h with
  | nil => exact hls
  | newline _ => simp
  | decorator hitem _ =>
    obtain ⟨-, -⟩ := hitem
    simp

theorem Definition.head?_append (h : Definition ks) (ls : List Kind) :
    (ks ++ ls).head? ≠ some .indent := by
  cases h with
  | plain _ => simp
  | async _ => simp

variable (filename : String)

/-- The search goes over line ends and decorators. -/
theorem Around.findFunction_append (h : Around ks) (found : Option FunctionBlock)
    (rest : List Token) :
    findFunction filename found (toks ks ++ rest) = findFunction filename found rest := by
  induction h with
  | nil => rfl
  | newline _ ih =>
    rw [toks_cons, List.cons_append, findFunction]
    exact ih
  | @decorator item ks hitem _ ih =>
    obtain @⟨body, stop, hbody, hstop⟩ := hitem
    have hend := statementEnd_append hbody hstop (toks ks ++ rest)
    simp only [toks_cons, toks_append, List.cons_append, List.append_assoc, List.nil_append]
    rw [findFunction]
    simp only [Kind.kind_bare, hend, drop_toks_succ]
    exact ih

/-- An `async` before a definition makes no difference to the search. -/
theorem Definition.findFunction_append (h : Definition ks) :
    ∃ named, Named named ∧ ∀ (found : Option FunctionBlock) (rest : List Token),
      findFunction filename found (toks ks ++ rest) =
        findFunction filename found ((Kind.keyword .defKw).bare :: (toks named ++ rest)) := by
  cases h with
  | plain hks => exact ⟨_, hks, fun found rest => rfl⟩
  | async hks =>
    refine ⟨_, hks, ?_⟩
    intro found rest
    rw [toks_cons, List.cons_append, findFunction]
    rfl

/-- The search takes up a first definition and goes on behind it. -/
theorem Definition.findFunction_first (h : Definition ks) (hls : ls.head? ≠ some .indent) :
    ∃ block, findFunction filename none (toks ks ++ toks ls) =
      findFunction filename (some block) (toks ls) := by
  obtain ⟨named, hnamed, heq⟩ := h.findFunction_append filename
  obtain ⟨block, size, hread, hsize⟩ := hnamed.read_eq ls
  refine ⟨block, ?_⟩
  rw [heq, findFunction]
  simp only [Kind.kind_bare, hread, hsize hls, drop_toks]

/-- The search refuses a second definition. -/
theorem Definition.findFunction_second (h : Definition ks) (ls : List Kind)
    (block : FunctionBlock) :
    faultOf (findFunction filename (some block) (toks ks ++ toks ls)) = some .multiple := by
  obtain ⟨named, hnamed, heq⟩ := h.findFunction_append filename
  obtain ⟨own, size, hread, -⟩ := hnamed.read_eq ls
  rw [heq, findFunction]
  simp only [Kind.kind_bare, hread]
  rfl

theorem Source.faultOf_eq (h : Source ks) :
    faultOf (findFunction filename none (toks (ks ++ [.eof]))) = none := by
  obtain ⟨before, function, after, rfl, hbefore, hfunction, hafter⟩ := h
  have hbehind : (after ++ [Kind.eof]).head? ≠ some .indent := hafter.head?_append (by simp)
  obtain ⟨block, hblock⟩ := hfunction.findFunction_first filename hbehind
  rw [List.append_assoc, List.append_assoc, toks_append, hbefore.findFunction_append, toks_append,
    hblock, toks_append, hafter.findFunction_append, toks_cons, findFunction]
  rfl

theorem Doubled.faultOf_eq (h : Doubled ks) :
    faultOf (findFunction filename none (toks ks)) = some .multiple := by
  obtain ⟨before, first, between, second, after, rfl, hbefore, hfirst, hbetween, hsecond⟩ := h
  have hbehind : (between ++ (second ++ after)).head? ≠ some .indent :=
    hbetween.head?_append (hsecond.head?_append after)
  obtain ⟨block, hblock⟩ := hfirst.findFunction_first filename hbehind
  rw [toks_append, hbefore.findFunction_append, toks_append, hblock, toks_append,
    hbetween.findFunction_append, toks_append]
  exact hsecond.findFunction_second filename after block

end Shape

end FieldView
