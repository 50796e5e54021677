import FieldView.Fencil.Basic
import FieldView.Proofs.Text.Reading

/-!
# Printed expressions

The printed form of an expression has no brackets around a callee, so arguments after a lambda read
as arguments of its body. It marks offsets and axes with a letter at the end of the name, so a
reference that ends in that letter reads as one of them. `asRead` is the expression that a reader
finds, and these are the only two ways in which it can differ from the one that was printed:
expressions are printed alike just when they are read alike (`render_eq_iff_asRead_eq`).

To follow the reader, a text is cut into its head and the lists of arguments after it (`applied`,
`groups`). The induction is over the callee, and the lists already taken off its end are carried
along; a lambda hands them on to its body (`readable_applied`).
-/

set_option autoImplicit false

namespace FieldView.Fencil

open Text

/-- What ends an expression inside another one. -/
def endMarks : List Char := [',', ')']

/-- What ends the head of an expression: its arguments, or what ends the expression. -/
def headMarks : List Char := ['(', ',', ')']

/-- What ends a name. Letters, digits, underscores, signs and points are no marks. -/
def nameMarks : List Char := ['(', ')', ',', ':', ' ']

namespace Expr

/-- Induction over an expression, with the hypothesis for every argument. -/
@[elab_as_elim]
theorem ind {motive : Expr → Prop}
    (ref : ∀ id, motive (.ref id))
    (literal : ∀ value ty, motive (.literal value ty))
    (offset : ∀ value, motive (.offset value))
    (axis : ∀ value, motive (.axis value))
    (call : ∀ callee args, motive callee → (∀ a ∈ args, motive a) → motive (.call callee args))
    (lambda : ∀ params body, motive body → motive (.lambda params body))
    (e : Expr) : motive e := by
  refine @Expr.rec motive (fun es => ∀ e ∈ es, motive e)
    ref literal offset axis call lambda ?_ ?_ e
  · intro e he
    cases he
  · intro e es ihe ihes e' he'
    rcases List.mem_cons.mp he' with rfl | he'
    · exact ihe
    · exact ihes e' he'

/-! ## Names -/

mutual

/-- The names in an expression: references, parameters, offsets, axes, and the parts of literals. -/
def names : Expr → List String
  | ref id => [id]
  | literal value ty => [value, ty]
  | offset value => [value]
  | axis value => [value]
  | call callee args => callee.names ++ namesAll args
  | lambda params body => params ++ body.names

/-- The names in several expressions. -/
def namesAll : List Expr → List String
  | [] => []
  | e :: es => e.names ++ namesAll es

end

/-- No name in the expression is empty or holds a mark. -/
def IsNamed (e : Expr) : Prop := ∀ name ∈ e.names, IsName nameMarks name

theorem namesAll_eq_flatMap (es : List Expr) : namesAll es = es.flatMap names := by
  induction es with
  | nil => rfl
  | cons e es ih => simp [namesAll, ih]

theorem isNamed_call_iff {callee : Expr} {args : List Expr} :
    (call callee args).IsNamed ↔ callee.IsNamed ∧ ∀ a ∈ args, a.IsNamed := by
  simp only [IsNamed, names, namesAll_eq_flatMap, List.mem_append, List.mem_flatMap, or_imp,
    forall_and]
  refine and_congr Iff.rfl ?_
  exact ⟨fun h a ha name hname => h name ⟨a, ha, hname⟩,
    fun h name ⟨a, ha, hname⟩ => h a ha name hname⟩

theorem isNamed_lambda_iff {params : List String} {body : Expr} :
    (lambda params body).IsNamed ↔ (∀ p ∈ params, IsName nameMarks p) ∧ body.IsNamed := by
  simp only [IsNamed, names, List.mem_append, or_imp, forall_and]

/-! ## What a reader finds -/

/-- The word as a reference, or as an offset or an axis if it ends like one. -/
def wordAsRead (word : String) : Expr :=
  let stem := String.ofList word.toList.dropLast
  if stem = "" then ref word
  else if word = stem ++ "ₒ" then offset stem
  else if word = stem ++ "ₐ" then axis stem
  else ref word

/-- The call as it reads behind the text of the callee: a lambda hands the arguments on to its
body. -/
def applyInside : Expr → List Expr → Expr
  | lambda params body, args => lambda params (body.applyInside args)
  | callee, args => call callee args

mutual

/-- The expression that a reader finds in the printed form. -/
def asRead : Expr → Expr
  | ref id => wordAsRead id
  | literal value ty => literal value ty
  | offset value => offset value
  | axis value => axis value
  | call callee args => callee.asRead.applyInside (asReadAll args)
  | lambda params body => lambda params body.asRead

/-- The expressions that a reader finds. -/
def asReadAll : List Expr → List Expr
  | [] => []
  | e :: es => e.asRead :: asReadAll es

end

theorem asReadAll_eq_map (es : List Expr) : asReadAll es = es.map asRead := by
  induction es with
  | nil => rfl
  | cons e es ih => simp [asReadAll, ih]

/-- What a word can read as. -/
theorem wordAsRead_cases (word : String) :
    (wordAsRead word = ref word) ∨
      ∃ stem, stem ≠ "" ∧ (word = stem ++ "ₒ" ∧ wordAsRead word = offset stem ∨
        word = stem ++ "ₐ" ∧ wordAsRead word = axis stem) := by
  simp only [wordAsRead]
  split
  · exact .inl rfl
  · next hstem =>
    split
    · next hword => exact .inr ⟨_, hstem, .inl ⟨hword, rfl⟩⟩
    · split
      · next hword => exact .inr ⟨_, hstem, .inr ⟨hword, rfl⟩⟩
      · exact .inl rfl

theorem wordAsRead_offset {stem : String} (h : stem ≠ "") :
    wordAsRead (stem ++ "ₒ") = offset stem := by
  simp [wordAsRead, h]

theorem wordAsRead_axis {stem : String} (h : stem ≠ "") :
    wordAsRead (stem ++ "ₐ") = axis stem := by
  simp [wordAsRead, h]

theorem render_wordAsRead (word : String) : (wordAsRead word).render = word := by
  obtain h | ⟨stem, -, ⟨rfl, h⟩ | ⟨rfl, h⟩⟩ := wordAsRead_cases word
  · rw [h, render]
  · rw [h, render]
  · rw [h, render]

theorem render_applyInside (callee : Expr) (args : List Expr) :
    (callee.applyInside args).render = (call callee args).render := by
  induction callee using Expr.ind with
  | lambda params body ih =>
    rw [applyInside]
    simp [render, ih, String.append_assoc]
  | _ => rfl

/-- What a reader finds is printed as what was read. -/
theorem render_asRead (e : Expr) : e.asRead.render = e.render := by
  induction e using Expr.ind with
  | ref id => exact render_wordAsRead id
  | literal value ty => rfl
  | offset value => rfl
  | axis value => rfl
  | call callee args ihcallee ihargs =>
    have hargs : args.map (render ∘ asRead) = args.map render := List.map_congr_left ihargs
    rw [asRead, render_applyInside]
    simp [render, renderAll_eq_map, asReadAll_eq_map, ihcallee, hargs]
  | lambda params body ih => rw [asRead, render, render, ih]

/-! ## Heads and their arguments -/

/-- The expression applied to lists of arguments, one after another. -/
def applied (head : Expr) (argss : List (List Expr)) : Expr := argss.foldl call head

theorem applied_nil (head : Expr) : head.applied [] = head := rfl

theorem applied_cons (head : Expr) (args : List Expr) (argss : List (List Expr)) :
    head.applied (args :: argss) = (call head args).applied argss := rfl

theorem applied_snoc (head : Expr) (argss : List (List Expr)) (args : List Expr) :
    head.applied (argss ++ [args]) = call (head.applied argss) args := by
  simp [applied]

/-- The text of lists of arguments, one after another. -/
def groups (argss : List (List Expr)) : List Char :=
  argss.flatMap fun args => '(' :: ((commaList (args.map render)).toList ++ [')'])

theorem groups_cons_append (args : List Expr) (argss : List (List Expr)) (r : List Char) :
    groups (args :: argss) ++ r =
      '(' :: ((commaList (args.map render)).toList ++ ')' :: (groups argss ++ r)) := by
  simp [groups]

theorem toList_render_applied (head : Expr) (argss : List (List Expr)) :
    (head.applied argss).render.toList = head.render.toList ++ groups argss := by
  induction argss generalizing head with
  | nil => simp [applied_nil, groups]
  | cons args argss ih =>
    rw [applied_cons, ih]
    simp [render, renderAll_eq_map, groups]

theorem asRead_applied (head : Expr) (argss : List (List Expr)) :
    (head.applied argss).asRead = (argss.map asReadAll).foldl applyInside head.asRead := by
  induction argss generalizing head with
  | nil => rfl
  | cons args argss ih => exact ih (call head args)

theorem asRead_applied_lambda (params : List String) (body : Expr) (argss : List (List Expr)) :
    ((lambda params body).applied argss).asRead = lambda params (body.applied argss).asRead := by
  have hinside : ∀ (argss : List (List Expr)) (body : Expr),
      argss.foldl applyInside (lambda params body) =
        lambda params (argss.foldl applyInside body) := by
    intro argss
    induction argss with
    | nil => intro body; rfl
    | cons args argss ih => intro body; exact ih (body.applyInside args)
  rw [asRead_applied, asRead, hinside, asRead_applied]

theorem isNamed_applied_iff {head : Expr} {argss : List (List Expr)} :
    (head.applied argss).IsNamed ↔
      head.IsNamed ∧ ∀ args ∈ argss, ∀ a ∈ args, a.IsNamed := by
  induction argss generalizing head with
  | nil => simp [applied_nil]
  | cons args argss ih =>
    rw [applied_cons, ih, isNamed_call_iff, List.forall_mem_cons, and_assoc]

/-- The expressions whose text is one word. -/
inductive IsWord : Expr → Prop
  | ref (id : String) : IsWord (ref id)
  | offset (value : String) : IsWord (offset value)
  | axis (value : String) : IsWord (axis value)

/-- An expression by its head. -/
inductive Spine : Expr → Prop
  | word {head : Expr} (argss : List (List Expr)) : head.IsWord → Spine (head.applied argss)
  | literal (value ty : String) (argss : List (List Expr)) :
      Spine ((literal value ty).applied argss)
  | lambda (params : List String) (body : Expr) (argss : List (List Expr)) :
      Spine ((lambda params body).applied argss)

theorem spine (e : Expr) : e.Spine := by
  induction e using Expr.ind with
  | ref id => exact .word [] (.ref id)
  | literal value ty => exact .literal value ty []
  | offset value => exact .word [] (.offset value)
  | axis value => exact .word [] (.axis value)
  | call callee args ih _ =>
    cases ih with
    | word argss hhead =>
      rw [← applied_snoc]
      exact .word _ hhead
    | literal value ty argss =>
      rw [← applied_snoc]
      exact .literal value ty _
    | lambda params body argss =>
      rw [← applied_snoc]
      exact .lambda params body _
  | lambda params body _ => exact .lambda params body []

/-- A word is told by its text. -/
theorem IsWord.isName_render {e : Expr} (h : e.IsWord) (hnamed : e.IsNamed) :
    IsName nameMarks e.render := by
  cases h with
  | ref id => exact hnamed id List.mem_cons_self
  | offset value => exact (hnamed value List.mem_cons_self).append (by simp [nameMarks])
  | axis value => exact (hnamed value List.mem_cons_self).append (by simp [nameMarks])

theorem IsWord.asRead_eq {e : Expr} (h : e.IsWord) (hnamed : e.IsNamed) :
    e.asRead = wordAsRead e.render := by
  cases h with
  | ref id => rw [asRead, render]
  | offset value =>
    have hvalue := hnamed value List.mem_cons_self
    rw [asRead, render, wordAsRead_offset hvalue.nonempty]
  | axis value =>
    have hvalue := hnamed value List.mem_cons_self
    rw [asRead, render, wordAsRead_axis hvalue.nonempty]

/-! ## Reading expressions back -/

/-- In a text that begins with the expression, a reader finds it and nothing else. -/
def Readable (e : Expr) : Prop :=
  ∀ b : Expr, b.IsNamed → ReadsOff endMarks e.render.toList b.render.toList (e.asRead = b.asRead)

section Reading

variable {word value ty : String} {params : List String} {argss argss' : List (List Expr)}
  {r s : List Char}

theorem stopsAt_groups_append (hs : StopsAt endMarks s) :
    StopsAt headMarks (groups argss ++ s) := by
  cases argss with
  | nil => exact hs.mono (by simp [endMarks, headMarks])
  | cons args argss => simp [groups_cons_append, headMarks]

theorem stopsAt_nameMarks (h : StopsAt headMarks r) : StopsAt nameMarks r :=
  h.mono (by simp [headMarks, nameMarks])

theorem toList_render_literal_applied (value ty : String) (argss : List (List Expr)) :
    ((literal value ty).applied argss).render.toList =
      value.toList ++ ':' :: (ty.toList ++ groups argss) := by
  simp [toList_render_applied, render]

theorem toList_render_lambda_applied (params : List String) (body : Expr)
    (argss : List (List Expr)) :
    ((lambda params body).applied argss).render.toList =
      'λ' :: '(' :: ((commaList params).toList ++
        ')' :: ' ' :: '→' :: ' ' :: (body.applied argss).render.toList) := by
  simp [toList_render_applied, render]

/-- No name goes on after the letter of a lambda. -/
theorem eq_of_append_eq_lambda (hword : IsName nameMarks word) (hr : StopsAt nameMarks r)
    (h : word.toList ++ r = 'λ' :: '(' :: s) : r = '(' :: s := by
  have hletter : ∀ c ∈ ['λ'], c ∉ nameMarks := by simp [nameMarks]
  exact (unmarked_append_inj hword.unmarked hletter hr (by simp [nameMarks]) h).2

theorem literal_ne_lambda (hvalue : IsName nameMarks value) :
    value.toList ++ ':' :: r ≠ 'λ' :: '(' :: s := by
  intro h
  have hcolon := eq_of_append_eq_lambda hvalue (by simp [nameMarks]) h
  cases (List.cons.inj hcolon).1

/-- A word has no colon after it. -/
theorem word_ne_literal (hword : IsName nameMarks word) (hvalue : IsName nameMarks value)
    (hr : StopsAt headMarks r) : word.toList ++ r ≠ value.toList ++ ':' :: s := by
  intro h
  obtain ⟨-, hcolon⟩ := hword.readsOff hvalue _ _ (stopsAt_nameMarks hr) (by simp [nameMarks]) h
  rw [hcolon] at hr
  simp [headMarks] at hr

/-- A word is read off any text as what it reads as by itself. -/
theorem readsOff_word (hword : IsName nameMarks word) (b : Expr) (hb : b.IsNamed) :
    ReadsOff endMarks word.toList b.render.toList (wordAsRead word = b.asRead) := by
  intro r s hr hs h
  have hhead : StopsAt headMarks r := hr.mono (by simp [endMarks, headMarks])
  cases b.spine with
  | @word head argss hword' =>
    obtain ⟨hnamed, -⟩ := isNamed_applied_iff.mp hb
    rw [toList_render_applied, List.append_assoc] at h
    obtain ⟨rfl, hrest⟩ := hword.readsOff (hword'.isName_render hnamed) _ _
      (stopsAt_nameMarks hhead) (stopsAt_nameMarks (stopsAt_groups_append hs)) h
    cases argss with
    | nil => exact ⟨(hword'.asRead_eq hnamed).symm, hrest⟩
    | cons args argss =>
      rw [hrest, groups_cons_append] at hr
      simp [endMarks] at hr
  | literal value ty argss =>
    have hvalue : IsName nameMarks value := (isNamed_applied_iff.mp hb).1 value List.mem_cons_self
    rw [toList_render_literal_applied, List.append_assoc] at h
    exact absurd h (word_ne_literal hword hvalue hhead)
  | lambda params body argss =>
    rw [toList_render_lambda_applied] at h
    have hbracket := eq_of_append_eq_lambda hword (stopsAt_nameMarks hhead) h
    rw [hbracket] at hr
    simp [endMarks] at hr

/-- No expression is printed as nothing or begins with a closing bracket. -/
theorem not_stopsAt_render {e : Expr} (h : e.IsNamed) : ¬ StopsAt [')'] e.render.toList := by
  have hbracket : ∀ c ∈ [')'], c ∈ nameMarks := by simp [nameMarks]
  intro hstop
  cases e.spine with
  | @word head argss hhead =>
    obtain ⟨hhnamed, -⟩ := isNamed_applied_iff.mp h
    rw [toList_render_applied] at hstop
    exact (hhead.isName_render hhnamed).not_stopsAt hbracket hstop.of_append
  | literal value ty argss =>
    have hvalue : IsName nameMarks value := (isNamed_applied_iff.mp h).1 value List.mem_cons_self
    rw [toList_render_literal_applied] at hstop
    exact hvalue.not_stopsAt hbracket hstop.of_append
  | lambda params body argss =>
    rw [toList_render_lambda_applied] at hstop
    simp at hstop

/-- A list of expressions can be read back if the expressions can. -/
theorem readsOff_args {xs ys : List Expr} (hxs : ∀ x ∈ xs, x.IsNamed) (hys : ∀ y ∈ ys, y.IsNamed)
    (hitems : ∀ x ∈ xs, ∀ y ∈ ys,
      ReadsOff endMarks x.render.toList y.render.toList (x.asRead = y.asRead))
    (h : (commaList (xs.map render)).toList ++ ')' :: r =
      (commaList (ys.map render)).toList ++ ')' :: s) :
    asReadAll xs = asReadAll ys ∧ r = s := by
  rw [asReadAll_eq_map, asReadAll_eq_map]
  exact readsOff_commaList (by simp [endMarks]) (by simp [endMarks]) (by decide) hitems
    (fun x hx => not_stopsAt_render (hxs x hx)) (fun y hy => not_stopsAt_render (hys y hy)) h

/-- A call of a word is no lambda: there is no arrow after the arguments. -/
theorem word_applied_ne_lambda (hword : IsName nameMarks word)
    (hargss : ∀ args ∈ argss, ∀ a ∈ args, a.IsNamed) (hs : StopsAt endMarks s)
    (hparams : ∀ p ∈ params, IsName nameMarks p) :
    word.toList ++ (groups argss ++ s) ≠
      'λ' :: '(' :: ((commaList params).toList ++ ')' :: ' ' :: r) := by
  intro h
  have hrest := eq_of_append_eq_lambda hword (stopsAt_nameMarks (stopsAt_groups_append hs)) h
  cases argss with
  | nil =>
    have hs' : s = '(' :: ((commaList params).toList ++ ')' :: ' ' :: r) := hrest
    rw [hs'] at hs
    simp [endMarks] at hs
  | cons args argss =>
    -- The parameters read as arguments that are words.
    have hwords : (params.map ref).map render = params := by
      rw [List.map_map]
      exact List.map_id params
    have hlists : (commaList ((params.map ref).map render)).toList ++ ')' :: ' ' :: r =
        (commaList (args.map render)).toList ++ ')' :: (groups argss ++ s) := by
      rw [groups_cons_append] at hrest
      rw [hwords]
      exact (List.cons.inj hrest).2.symm
    have hargs : ∀ a ∈ args, a.IsNamed := hargss args List.mem_cons_self
    have hnamed : ∀ x ∈ params.map ref, x.IsNamed := by
      rw [List.forall_mem_map]
      intro p hp
      exact List.forall_mem_singleton.mpr (hparams p hp)
    have hitems : ∀ x ∈ params.map ref, ∀ a ∈ args,
        ReadsOff endMarks x.render.toList a.render.toList (x.asRead = a.asRead) := by
      rw [List.forall_mem_map]
      intro p hp a ha
      exact readsOff_word (hparams p hp) a (hargs a ha)
    obtain ⟨-, harrow⟩ := readsOff_args hnamed hargs hitems hlists
    have hafter : StopsAt headMarks (groups argss ++ s) := stopsAt_groups_append hs
    rw [← harrow] at hafter
    simp [headMarks] at hafter

/-- Lists of arguments can be read back if the arguments can. -/
theorem readsOff_groups (hargss : ∀ args ∈ argss, ∀ a ∈ args, a.IsNamed)
    (hargss' : ∀ args ∈ argss', ∀ a ∈ args, a.IsNamed)
    (hitems : ∀ args ∈ argss, ∀ a ∈ args, a.Readable) :
    ReadsOff endMarks (groups argss) (groups argss')
      (argss.map asReadAll = argss'.map asReadAll) := by
  intro r s hr hs h
  induction argss generalizing argss' with
  | nil =>
    cases argss' with
    | nil => exact ⟨rfl, h⟩
    | cons args' argss' =>
      have hr' : r = groups (args' :: argss') ++ s := h
      rw [hr', groups_cons_append] at hr
      simp [endMarks] at hr
  | cons args argss ih =>
    cases argss' with
    | nil =>
      have hs' : groups (args :: argss) ++ r = s := h
      rw [← hs', groups_cons_append] at hs
      simp [endMarks] at hs
    | cons args' argss' =>
      obtain ⟨hargs, hargss⟩ := List.forall_mem_cons.mp hargss
      obtain ⟨hargs', hargss'⟩ := List.forall_mem_cons.mp hargss'
      obtain ⟨hitem, hitems⟩ := List.forall_mem_cons.mp hitems
      rw [groups_cons_append, groups_cons_append] at h
      obtain ⟨hfirst, hmore⟩ := readsOff_args hargs hargs'
        (fun a ha b hb => hitem a ha b (hargs' b hb)) (List.cons.inj h).2
      obtain ⟨hlater, hrest⟩ := ih hargss hargss' hitems hmore
      exact ⟨List.cons_eq_cons.mpr ⟨hfirst, hlater⟩, hrest⟩

end Reading

section Applied

variable {argss : List (List Expr)}

theorem readable_word_applied {head : Expr} (hhead : head.IsWord) (hnamed : head.IsNamed)
    (hargss : ∀ args ∈ argss, ∀ a ∈ args, a.IsNamed)
    (hitems : ∀ args ∈ argss, ∀ a ∈ args, a.Readable) : (head.applied argss).Readable := by
  intro b hb r s hr hs h
  have hword := hhead.isName_render hnamed
  rw [toList_render_applied, List.append_assoc] at h
  cases b.spine with
  | @word head' argss' hhead' =>
    obtain ⟨hnamed', hargss'⟩ := isNamed_applied_iff.mp hb
    rw [toList_render_applied, List.append_assoc] at h
    obtain ⟨hwords, hgroups⟩ := hword.readsOff (hhead'.isName_render hnamed') _ _
      (stopsAt_nameMarks (stopsAt_groups_append hr))
      (stopsAt_nameMarks (stopsAt_groups_append hs)) h
    obtain ⟨hargs, hrest⟩ := readsOff_groups hargss hargss' hitems r s hr hs hgroups
    refine ⟨?_, hrest⟩
    rw [asRead_applied, asRead_applied, hhead.asRead_eq hnamed, hhead'.asRead_eq hnamed', hwords,
      hargs]
  | literal value ty argss' =>
    have hvalue : IsName nameMarks value := (isNamed_applied_iff.mp hb).1 value List.mem_cons_self
    rw [toList_render_literal_applied, List.append_assoc] at h
    exact absurd h (word_ne_literal hword hvalue (stopsAt_groups_append hr))
  | lambda params body argss' =>
    obtain ⟨hparams, -⟩ := isNamed_lambda_iff.mp (isNamed_applied_iff.mp hb).1
    rw [toList_render_lambda_applied] at h
    simp only [List.cons_append, List.append_assoc] at h
    exact absurd h (word_applied_ne_lambda hword hargss hr hparams)

theorem readable_literal_applied {value ty : String} (hnamed : (literal value ty).IsNamed)
    (hargss : ∀ args ∈ argss, ∀ a ∈ args, a.IsNamed)
    (hitems : ∀ args ∈ argss, ∀ a ∈ args, a.Readable) :
    ((literal value ty).applied argss).Readable := by
  intro b hb r s hr hs h
  obtain ⟨hvalue, hty⟩ := List.forall_mem_cons.mp hnamed
  rw [List.forall_mem_singleton] at hty
  rw [toList_render_literal_applied, List.append_assoc] at h
  cases b.spine with
  | @word head argss' hhead =>
    have hword := hhead.isName_render (isNamed_applied_iff.mp hb).1
    rw [toList_render_applied, List.append_assoc] at h
    exact absurd h.symm (word_ne_literal hword hvalue (stopsAt_groups_append hs))
  | literal value' ty' argss' =>
    obtain ⟨hnamed', hargss'⟩ := isNamed_applied_iff.mp hb
    obtain ⟨hvalue', hty'⟩ := List.forall_mem_cons.mp hnamed'
    rw [List.forall_mem_singleton] at hty'
    rw [toList_render_literal_applied, List.append_assoc] at h
    obtain ⟨rfl, htys⟩ := hvalue.readsOff hvalue' _ _ (by simp [nameMarks]) (by simp [nameMarks]) h
    simp only [List.cons_append, List.append_assoc, List.cons.injEq, true_and] at htys
    obtain ⟨rfl, hgroups⟩ := hty.readsOff hty' _ _ (stopsAt_nameMarks (stopsAt_groups_append hr))
      (stopsAt_nameMarks (stopsAt_groups_append hs)) htys
    obtain ⟨hargs, hrest⟩ := readsOff_groups hargss hargss' hitems r s hr hs hgroups
    exact ⟨by rw [asRead_applied, asRead_applied, hargs], hrest⟩
  | lambda params body argss' =>
    rw [toList_render_lambda_applied] at h
    exact absurd h (literal_ne_lambda hvalue)

theorem readable_lambda_applied {params : List String} {body : Expr}
    (hparams : ∀ p ∈ params, IsName nameMarks p) (hbody : (body.applied argss).Readable) :
    ((lambda params body).applied argss).Readable := by
  intro b hb r s hr hs h
  rw [toList_render_lambda_applied] at h
  simp only [List.cons_append, List.append_assoc] at h
  cases b.spine with
  | @word head argss' hhead =>
    obtain ⟨hnamed', hargss'⟩ := isNamed_applied_iff.mp hb
    rw [toList_render_applied head, List.append_assoc] at h
    exact absurd h.symm
      (word_applied_ne_lambda (hhead.isName_render hnamed') hargss' hs hparams)
  | literal value ty argss' =>
    have hvalue : IsName nameMarks value := (isNamed_applied_iff.mp hb).1 value List.mem_cons_self
    rw [toList_render_literal_applied, List.append_assoc] at h
    exact absurd h.symm (literal_ne_lambda hvalue)
  | lambda params' body' argss' =>
    obtain ⟨hlambda, hargss'⟩ := isNamed_applied_iff.mp hb
    obtain ⟨hparams', hbody'⟩ := isNamed_lambda_iff.mp hlambda
    rw [toList_render_lambda_applied] at h
    simp only [List.cons_append, List.append_assoc, List.cons.injEq, true_and] at h
    obtain ⟨rfl, harrow⟩ := readsOff_names (by simp [nameMarks]) (by simp [nameMarks]) (by decide)
      hparams hparams' h
    simp only [List.cons.injEq, true_and] at harrow
    obtain ⟨hbodies, hrest⟩ := hbody _ (isNamed_applied_iff.mpr ⟨hbody', hargss'⟩) r s hr hs harrow
    exact ⟨by rw [asRead_applied_lambda, asRead_applied_lambda, hbodies], hrest⟩

/-- **An expression can be read off its text, with any arguments that can be read after it.** -/
theorem readable_applied (e : Expr) (he : e.IsNamed)
    (hargss : ∀ args ∈ argss, ∀ a ∈ args, a.IsNamed)
    (hitems : ∀ args ∈ argss, ∀ a ∈ args, a.Readable) : (e.applied argss).Readable := by
  induction e using Expr.ind generalizing argss with
  | ref id => exact readable_word_applied (.ref id) he hargss hitems
  | literal value ty => exact readable_literal_applied he hargss hitems
  | offset value => exact readable_word_applied (.offset value) he hargss hitems
  | axis value => exact readable_word_applied (.axis value) he hargss hitems
  | call callee args ihcallee ihargs =>
    obtain ⟨hcallee, hargs⟩ := isNamed_call_iff.mp he
    have hreadable : ∀ a ∈ args, a.Readable := by
      intro a ha
      rw [← applied_nil a]
      exact ihargs a ha (hargs a ha) (List.forall_mem_nil _) (List.forall_mem_nil _)
    rw [← applied_cons]
    exact ihcallee hcallee (List.forall_mem_cons.mpr ⟨hargs, hargss⟩)
      (List.forall_mem_cons.mpr ⟨hreadable, hitems⟩)
  | lambda params body ih =>
    obtain ⟨hparams, hbody⟩ := isNamed_lambda_iff.mp he
    exact readable_lambda_applied hparams (ih hbody hargss hitems)

end Applied

theorem readable_of_isNamed {e : Expr} (he : e.IsNamed) : e.Readable := by
  rw [← applied_nil e]
  exact readable_applied e he (List.forall_mem_nil _) (List.forall_mem_nil _)

/-! ## Expressions that read as they are -/

/-- No callee in the expression is a lambda, and no reference ends like an offset or an axis. -/
inductive Plain : Expr → Prop
  | ref {id : String} : (∀ stem, stem ≠ "" → id ≠ stem ++ "ₒ" ∧ id ≠ stem ++ "ₐ") → Plain (ref id)
  | literal (value ty : String) : Plain (literal value ty)
  | offset (value : String) : Plain (offset value)
  | axis (value : String) : Plain (axis value)
  | call {callee : Expr} {args : List Expr} : (∀ params body, callee ≠ lambda params body) →
      Plain callee → (∀ a ∈ args, Plain a) → Plain (call callee args)
  | lambda {params : List String} {body : Expr} : Plain body → Plain (lambda params body)

theorem wordAsRead_eq_ref_iff {word : String} :
    wordAsRead word = ref word ↔
      ∀ stem, stem ≠ "" → word ≠ stem ++ "ₒ" ∧ word ≠ stem ++ "ₐ" := by
  constructor
  · intro h stem hstem
    constructor
    · rintro rfl
      rw [wordAsRead_offset hstem] at h
      cases h
    · rintro rfl
      rw [wordAsRead_axis hstem] at h
      cases h
  · intro h
    obtain href | ⟨stem, hstem, ⟨hword, -⟩ | ⟨hword, -⟩⟩ := wordAsRead_cases word
    · exact href
    · exact absurd hword (h stem hstem).1
    · exact absurd hword (h stem hstem).2

/-- Where arguments stay behind their callee, that is no lambda. -/
theorem applyInside_eq_call_iff {callee callee' : Expr} {args args' : List Expr} :
    callee.applyInside args = call callee' args' ↔
      (∀ params body, callee ≠ lambda params body) ∧ callee = callee' ∧ args = args' := by
  cases callee with
  | lambda params body => simp [applyInside]
  | _ => simp [applyInside]

theorem asReadAll_eq_self_iff {es : List Expr} :
    asReadAll es = es ↔ ∀ e ∈ es, e.asRead = e := by
  induction es with
  | nil => simp [asReadAll]
  | cons e es ih => simp [asReadAll, ih]

theorem asRead_eq_self_iff {e : Expr} : e.asRead = e ↔ e.Plain := by
  induction e using Expr.ind with
  | ref id =>
    rw [asRead, wordAsRead_eq_ref_iff]
    exact ⟨.ref, fun h => by cases h with | ref h => exact h⟩
  | literal value ty => exact ⟨fun _ => .literal value ty, fun _ => rfl⟩
  | offset value => exact ⟨fun _ => .offset value, fun _ => rfl⟩
  | axis value => exact ⟨fun _ => .axis value, fun _ => rfl⟩
  | call callee args ihcallee ihargs =>
    rw [asRead, applyInside_eq_call_iff, asReadAll_eq_self_iff]
    constructor
    · rintro ⟨hlambda, hcallee, hargs⟩
      rw [hcallee] at hlambda
      exact .call hlambda (ihcallee.mp hcallee) fun a ha => (ihargs a ha).mp (hargs a ha)
    · intro h
      cases h with
      | call hlambda hcallee hargs =>
        have hsame := ihcallee.mpr hcallee
        exact ⟨hsame.symm ▸ hlambda, hsame, fun a ha => (ihargs a ha).mpr (hargs a ha)⟩
  | lambda params body ih =>
    rw [asRead, lambda.injEq, ih]
    constructor
    · intro h
      exact .lambda h.2
    · intro h
      cases h with
      | lambda h => exact ⟨rfl, h⟩

theorem isNamed_wordAsRead {word : String} (h : IsName nameMarks word) :
    (wordAsRead word).IsNamed := by
  obtain hword | ⟨stem, hstem, ⟨rfl, hword⟩ | ⟨rfl, hword⟩⟩ := wordAsRead_cases word
  · rw [hword]
    exact List.forall_mem_singleton.mpr h
  · rw [hword]
    exact List.forall_mem_singleton.mpr (h.of_append hstem)
  · rw [hword]
    exact List.forall_mem_singleton.mpr (h.of_append hstem)

theorem isNamed_applyInside {callee : Expr} {args : List Expr} :
    (callee.applyInside args).IsNamed ↔ (call callee args).IsNamed := by
  induction callee using Expr.ind with
  | lambda params body ih =>
    rw [applyInside, isNamed_lambda_iff, ih, isNamed_call_iff, isNamed_call_iff, isNamed_lambda_iff,
      and_assoc]
  | _ => rfl

theorem isNamed_asRead {e : Expr} (h : e.IsNamed) : e.asRead.IsNamed := by
  induction e using Expr.ind with
  | ref id => exact isNamed_wordAsRead (h id List.mem_cons_self)
  | literal value ty => exact h
  | offset value => exact h
  | axis value => exact h
  | call callee args ihcallee ihargs =>
    obtain ⟨hcallee, hargs⟩ := isNamed_call_iff.mp h
    rw [asRead, isNamed_applyInside, isNamed_call_iff, asReadAll_eq_map, List.forall_mem_map]
    exact ⟨ihcallee hcallee, fun a ha => ihargs a ha (hargs a ha)⟩
  | lambda params body ih =>
    obtain ⟨hparams, hbody⟩ := isNamed_lambda_iff.mp h
    rw [asRead, isNamed_lambda_iff]
    exact ⟨hparams, ih hbody⟩

/-- **Expressions are printed alike just when they are read alike.** So a text tells between plain
expressions, and every other expression shares its text with another one. -/
theorem render_eq_iff_asRead_eq {e₁ e₂ : Expr} (h₁ : e₁.IsNamed) (h₂ : e₂.IsNamed) :
    (e₁.render = e₂.render ↔ e₁.asRead = e₂.asRead) ∧
      (e₁.Plain → e₂.Plain → e₁.render = e₂.render → e₁ = e₂) ∧
      (¬ e₁.Plain → ∃ e : Expr, e.IsNamed ∧ e ≠ e₁ ∧ e.render = e₁.render) := by
  have hread : e₁.render = e₂.render → e₁.asRead = e₂.asRead := by
    intro h
    have htext : e₁.render.toList ++ [] = e₂.render.toList ++ [] := by rw [h]
    exact (readable_of_isNamed h₁ e₂ h₂ [] [] stopsAt_nil stopsAt_nil htext).1
  refine ⟨⟨hread, ?_⟩, ?_, ?_⟩
  · intro h
    rw [← render_asRead e₁, h, render_asRead]
  · intro hplain₁ hplain₂ h
    rw [← asRead_eq_self_iff.mpr hplain₁, hread h, asRead_eq_self_iff.mpr hplain₂]
  · intro hplain
    have hother : e₁.asRead ≠ e₁ := fun h => hplain (asRead_eq_self_iff.mp h)
    exact ⟨e₁.asRead, isNamed_asRead h₁, hother, render_asRead e₁⟩

/-- A lambda that is called. -/
def calledLambda : Expr := call (lambda ["x"] (ref "y")) [ref "z"]

/-- A lambda with a call in it. -/
def callingLambda : Expr := lambda ["x"] (call (ref "y") [ref "z"])

/-- A call of a lambda is printed as the lambda of a call. -/
theorem render_calledLambda :
    calledLambda.IsNamed ∧ callingLambda.IsNamed ∧ calledLambda ≠ callingLambda ∧
      calledLambda.render = callingLambda.render ∧ callingLambda.render = "λ(x) → y(z)" ∧
      ¬ calledLambda.Plain ∧ callingLambda.Plain := by
  have hcalled : calledLambda.IsNamed := by
    simp [calledLambda, IsNamed, names, namesAll, isName_iff, nameMarks]
  have hcalling : callingLambda.IsNamed := by
    simp [callingLambda, IsNamed, names, namesAll, isName_iff, nameMarks]
  have hread : calledLambda.asRead = callingLambda := by
    simp [calledLambda, callingLambda, asRead, asReadAll, applyInside, wordAsRead]
  have hself : callingLambda.asRead = callingLambda := by
    simp [callingLambda, asRead, asReadAll, applyInside, wordAsRead]
  have hne : calledLambda ≠ callingLambda := by
    unfold calledLambda callingLambda
    intro h
    cases h
  refine ⟨hcalled, hcalling, hne, ?_, rfl, ?_, asRead_eq_self_iff.mp hself⟩
  · exact (render_eq_iff_asRead_eq hcalled hcalling).1.mpr (hread.trans hself.symm)
  · intro h
    exact hne ((asRead_eq_self_iff.mpr h).symm.trans hread)

end Expr

end FieldView.Fencil
