import FieldView.Text.Comma

/-!
# Texts that can be read back

A reader of printed forms has to see where each part ends. Parts are ended by marks: a comma, a
closing bracket, or whatever the form has in that place, and a part is told from its text if no mark
that ends it stands inside. `ReadsOff` is that property, for two parts at a time and with any text
after them. Names have it because they hold no marks (`IsName.readsOff`), and lists have it if their
items do (`readsOff_commaList`).

The marks are a parameter, since types and expressions are printed with different ones.
-/

set_option autoImplicit false

namespace FieldView.Text

/-- The text is at its end or goes on with one of the marks. -/
def StopsAt (marks rest : List Char) : Prop := ∀ c ∈ rest.head?, c ∈ marks

/-- A name that can stand between marks. -/
structure IsName (marks : List Char) (name : String) : Prop where
  nonempty : name ≠ ""
  unmarked : ∀ c ∈ name.toList, c ∉ marks

theorem isName_iff {marks : List Char} {name : String} :
    IsName marks name ↔ name ≠ "" ∧ ∀ c ∈ name.toList, c ∉ marks :=
  ⟨fun h => ⟨h.nonempty, h.unmarked⟩, fun h => ⟨h.1, h.2⟩⟩

/-- Where a text begins with both parts, each of them ended by a mark, they stand for the same and
end at the same place. -/
def ReadsOff (marks a b : List Char) (same : Prop) : Prop :=
  ∀ r s, StopsAt marks r → StopsAt marks s → a ++ r = b ++ s → same ∧ r = s

theorem ReadsOff.imp {marks a b : List Char} {same same' : Prop} (h : ReadsOff marks a b same)
    (hsame : same → same') : ReadsOff marks a b same' := by
  intro r s hr hs heq
  obtain ⟨hparts, hrest⟩ := h r s hr hs heq
  exact ⟨hsame hparts, hrest⟩

section Marks

variable {marks : List Char} {c : Char} {a b r s : List Char}

@[simp]
theorem stopsAt_nil : StopsAt marks [] := by simp [StopsAt]

@[simp]
theorem stopsAt_cons : StopsAt marks (c :: r) ↔ c ∈ marks := by simp [StopsAt]

theorem StopsAt.mono {marks' : List Char} (h : StopsAt marks r) (hmarks : ∀ c ∈ marks, c ∈ marks') :
    StopsAt marks' r := fun c hc => hmarks c (h c hc)

theorem StopsAt.of_append (h : StopsAt marks (a ++ r)) : StopsAt marks a := by
  cases a with
  | nil => exact stopsAt_nil
  | cons c a => exact stopsAt_cons.mpr (stopsAt_cons.mp h)

theorem stopsAt_of_cons_eq_append (h : c :: r = a ++ s) : StopsAt [c] a := by
  cases a with
  | nil => exact stopsAt_nil
  | cons d a =>
    cases h
    simp

/-- What comes before the first mark is determined. -/
theorem unmarked_append_inj (ha : ∀ c ∈ a, c ∉ marks) (hb : ∀ c ∈ b, c ∉ marks)
    (hr : StopsAt marks r) (hs : StopsAt marks s) (h : a ++ r = b ++ s) : a = b ∧ r = s := by
  induction a generalizing b with
  | nil =>
    cases b with
    | nil => exact ⟨rfl, h⟩
    | cons d b =>
      have hr' : r = d :: (b ++ s) := h
      rw [hr', stopsAt_cons] at hr
      exact absurd hr (hb d List.mem_cons_self)
  | cons c a ih =>
    cases b with
    | nil =>
      have hs' : s = c :: (a ++ r) := h.symm
      rw [hs', stopsAt_cons] at hs
      exact absurd hs (ha c List.mem_cons_self)
    | cons d b =>
      obtain ⟨rfl, hrest⟩ := List.cons.inj h
      obtain ⟨rfl, rfl⟩ := ih (fun c hc => ha c (List.mem_cons_of_mem _ hc))
        (fun c hc => hb c (List.mem_cons_of_mem _ hc)) hrest
      exact ⟨rfl, rfl⟩

end Marks

namespace IsName

variable {marks : List Char} {name name' : String}

theorem readsOff (h : IsName marks name) (h' : IsName marks name') :
    ReadsOff marks name.toList name'.toList (name = name') := by
  intro r s hr hs heq
  obtain ⟨hnames, hrest⟩ := unmarked_append_inj h.unmarked h'.unmarked hr hs heq
  exact ⟨String.toList_inj.mp hnames, hrest⟩

theorem append (h : IsName marks name) (hmore : ∀ c ∈ name'.toList, c ∉ marks) :
    IsName marks (name ++ name') where
  nonempty := by
    intro hempty
    exact h.nonempty (String.append_eq_empty_iff.mp hempty).1
  unmarked := by
    intro c hc
    rw [String.toList_append, List.mem_append] at hc
    exact hc.elim (h.unmarked c) (hmore c)

theorem of_append (h : IsName marks (name ++ name')) (hname : name ≠ "") : IsName marks name where
  nonempty := hname
  unmarked := by
    intro c hc
    refine h.unmarked c ?_
    rw [String.toList_append]
    exact List.mem_append_left _ hc

/-- A name does not begin with a mark, and there is no end before it. -/
theorem not_stopsAt (h : IsName marks name) {ends : List Char} (hends : ∀ c ∈ ends, c ∈ marks) :
    ¬ StopsAt ends name.toList := by
  intro hstop
  cases htext : name.toList with
  | nil => exact h.nonempty (String.toList_eq_nil_iff.mp htext)
  | cons c rest =>
    rw [htext, stopsAt_cons] at hstop
    exact h.unmarked c (by simp [htext]) (hends c hstop)

end IsName

/-! ## Lists -/

section Lists

variable {close : Char}

/-- What follows an item of a list that is closed by a mark. -/
def afterItem (close : Char) (items : List String) (r : List Char) : List Char :=
  match items with
  | [] => close :: r
  | item :: items => ',' :: ' ' :: ((commaList (item :: items)).toList ++ close :: r)

theorem commaList_cons_append (item : String) (items : List String) (r : List Char) :
    (commaList (item :: items)).toList ++ close :: r =
      item.toList ++ afterItem close items r := by
  cases items with
  | nil => rfl
  | cons next items => simp [commaList, afterItem]

theorem stopsAt_afterItem {marks : List Char} (hcomma : ',' ∈ marks) (hclose : close ∈ marks)
    (items : List String) (r : List Char) : StopsAt marks (afterItem close items r) := by
  cases items with
  | nil => exact stopsAt_cons.mpr hclose
  | cons item items => exact stopsAt_cons.mpr hcomma

/-- **A list can be read back if its items can,** as long as no item is empty or begins with the
mark that closes the list. -/
theorem readsOff_commaList {α β : Type} {text : α → String} {shown : α → β} {marks : List Char}
    {xs ys : List α} {r s : List Char} (hcomma : ',' ∈ marks) (hclose : close ∈ marks)
    (hne : close ≠ ',')
    (hitems : ∀ x ∈ xs, ∀ y ∈ ys,
      ReadsOff marks (text x).toList (text y).toList (shown x = shown y))
    (hxs : ∀ x ∈ xs, ¬ StopsAt [close] (text x).toList)
    (hys : ∀ y ∈ ys, ¬ StopsAt [close] (text y).toList)
    (h : (commaList (xs.map text)).toList ++ close :: r =
      (commaList (ys.map text)).toList ++ close :: s) :
    xs.map shown = ys.map shown ∧ r = s := by
  induction xs generalizing ys with
  | nil =>
    cases ys with
    | nil => exact ⟨rfl, (List.cons.inj h).2⟩
    | cons y ys =>
      rw [List.map_cons, commaList_cons_append] at h
      exact absurd (stopsAt_of_cons_eq_append h) (hys y List.mem_cons_self)
  | cons x xs ih =>
    cases ys with
    | nil =>
      rw [List.map_cons, commaList_cons_append] at h
      exact absurd (stopsAt_of_cons_eq_append h.symm) (hxs x List.mem_cons_self)
    | cons y ys =>
      rw [List.map_cons, List.map_cons, commaList_cons_append, commaList_cons_append] at h
      obtain ⟨hxy, hafter⟩ := hitems x List.mem_cons_self y List.mem_cons_self _ _
        (stopsAt_afterItem hcomma hclose _ r) (stopsAt_afterItem hcomma hclose _ s) h
      -- Either both lists end here, or both go on with a comma.
      cases xs with
      | nil =>
        cases ys with
        | nil => exact ⟨by simp [hxy], (List.cons.inj hafter).2⟩
        | cons y' ys => exact absurd (List.cons.inj hafter).1 hne
      | cons x' xs =>
        cases ys with
        | nil => exact absurd (List.cons.inj hafter).1.symm hne
        | cons y' ys =>
          have hrest := (List.cons.inj (List.cons.inj hafter).2).2
          obtain ⟨hshown, hrs⟩ := ih
            (fun x hx y hy => hitems x (List.mem_cons_of_mem _ hx) y (List.mem_cons_of_mem _ hy))
            (fun x hx => hxs x (List.mem_cons_of_mem _ hx))
            (fun y hy => hys y (List.mem_cons_of_mem _ hy)) hrest
          exact ⟨List.cons_eq_cons.mpr ⟨hxy, hshown⟩, hrs⟩

/-- A list of names can be read back. -/
theorem readsOff_names {marks : List Char} {names names' : List String} {r s : List Char}
    (hcomma : ',' ∈ marks) (hclose : close ∈ marks) (hne : close ≠ ',')
    (hnames : ∀ name ∈ names, IsName marks name) (hnames' : ∀ name ∈ names', IsName marks name)
    (h : (commaList names).toList ++ close :: r = (commaList names').toList ++ close :: s) :
    names = names' ∧ r = s := by
  have hends : ∀ c ∈ [close], c ∈ marks := by simpa using hclose
  rw [← List.map_id names, ← List.map_id names'] at h
  have hread : names.map id = names'.map id ∧ r = s :=
    readsOff_commaList hcomma hclose hne
      (fun name hname name' hname' => (hnames name hname).readsOff (hnames' name' hname'))
      (fun name hname => (hnames name hname).not_stopsAt hends)
      (fun name hname => (hnames' name hname).not_stopsAt hends) h
  rwa [List.map_id, List.map_id] at hread

end Lists

end FieldView.Text
