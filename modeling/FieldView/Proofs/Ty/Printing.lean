import FieldView.Proofs.Text.Reading
import FieldView.Ty.Basic

/-!
# Printed types

The printed form of a type leaves out shapes and keyword parameters and keeps everything else:
two types are printed alike just when their outlines are equal (`render_eq_iff_outline_eq`).

Function types have no brackets around them, so a type does not end with a mark of its own. Its end
shows in what comes next: nothing, a comma, or a bracket that was opened before the type began
(`endMarks`). That is what the induction carries along (`readsOff_render`). Which kind of type a
text begins with shows in its first two characters (`kindRead`), so only types of one kind have to
be compared.
-/

set_option autoImplicit false

namespace FieldView

open Text

/-- What ends a type inside another one. -/
def Ty.endMarks : List Char := [',', ']', ')']

/-- What ends the name of a dimension. Letters, digits and underscores are no marks. -/
def Ty.nameMarks : List Char := [',', ' ', ']']

/-! ## Kinds and dimensions -/

namespace ScalarKind

theorem isName_name (k : ScalarKind) : IsName Ty.endMarks k.name := by
  cases k <;> constructor <;> simp [name, Ty.endMarks]

theorem eq_of_name_eq {k j : ScalarKind} (h : k.name = j.name) : k = j := by
  cases k <;> cases j <;> first | rfl | simp [name] at h

theorem readsOff_name (k j : ScalarKind) :
    ReadsOff Ty.endMarks k.name.toList j.name.toList (k = j) :=
  ((isName_name k).readsOff (isName_name j)).imp eq_of_name_eq

end ScalarKind

namespace Constraint

theorem isName_name (c : Constraint) : IsName Ty.endMarks c.name := by
  cases c <;> constructor <;> simp [name, Ty.endMarks]

theorem find?_name (c : Constraint) : all.find? (·.name == c.name) = some c := by
  cases c <;> rfl

theorem eq_of_name_eq {c d : Constraint} (h : c.name = d.name) : c = d := by
  have hfound := find?_name c
  rw [h, find?_name] at hfound
  exact (Option.some.inj hfound).symm

theorem readsOff_name (c d : Constraint) :
    ReadsOff Ty.endMarks c.name.toList d.name.toList (c = d) :=
  ((isName_name c).readsOff (isName_name d)).imp eq_of_name_eq

end Constraint

/-- The names in a list of dimensions. -/
def Dims.names : Dims → List String
  | any => []
  | known names => names

theorem Dims.eq_of_render_append {d e : Dims} {r s : List Char}
    (hd : ∀ name ∈ d.names, IsName Ty.nameMarks name)
    (he : ∀ name ∈ e.names, IsName Ty.nameMarks name)
    (h : d.render.toList ++ r = e.render.toList ++ s) : d = e ∧ r = s := by
  cases d with
  | any =>
    cases e with
    | any => exact ⟨rfl, by simpa [render] using h⟩
    | known names => simp [render] at h
  | known names =>
    cases e with
    | any => simp [render] at h
    | known names' =>
      have hlist : (commaList names).toList ++ ']' :: r =
          (commaList names').toList ++ ']' :: s := by
        simpa [render] using h
      obtain ⟨rfl, hrest⟩ :=
        readsOff_names (by simp [Ty.nameMarks]) (by simp [Ty.nameMarks]) (by decide) hd he hlist
      exact ⟨rfl, hrest⟩

namespace Ty

/-- Induction over a type, with the hypothesis for every member of a tuple and every argument.
Keyword parameters are passed over. -/
@[elab_as_elim]
theorem ind {motive : Ty → Prop}
    (deferred : ∀ c, motive (.deferred c))
    (scalar : ∀ s, motive (.scalar s))
    (field : ∀ dims dtype, motive (.field dims dtype))
    (tuple : ∀ types, (∀ t ∈ types, motive t) → motive (.tuple types))
    (function : ∀ args kwargs returns, (∀ t ∈ args, motive t) → motive returns →
      motive (.function args kwargs returns))
    (offset : ∀ source target, motive (.offset source target))
    (dimension : ∀ name, motive (.dimension name))
    (t : Ty) : motive t := by
  refine @Ty.rec motive (fun ts => ∀ t ∈ ts, motive t) (fun _ => True) (fun _ => True)
    deferred scalar field tuple
    (fun args kwargs returns ihargs _ => function args kwargs returns ihargs) offset dimension
    ?_ ?_ trivial (fun _ _ _ _ => trivial) (fun _ _ _ => trivial) t
  · intro t ht
    cases ht
  · intro t ts iht ihts t' ht'
    rcases List.mem_cons.mp ht' with rfl | ht'
    · exact iht
    · exact ihts t' ht'

/-! ## What is printed -/

mutual

/-- The names of dimensions in the printed form of a type. -/
def dimensionNames : Ty → List String
  | deferred _ => []
  | scalar _ => []
  | field dims _ => dims.names
  | tuple types => dimensionNamesAll types
  | function args _ returns => dimensionNamesAll args ++ returns.dimensionNames
  | offset source target => source :: target
  | dimension name => [name]

/-- The names of dimensions in the printed forms of several types. -/
def dimensionNamesAll : List Ty → List String
  | [] => []
  | t :: ts => t.dimensionNames ++ dimensionNamesAll ts

end

mutual

/-- The type without its shapes and keyword parameters. -/
def outline : Ty → Ty
  | deferred c => deferred c
  | scalar s => scalar { kind := s.kind }
  | field dims dtype => field dims { kind := dtype.kind }
  | tuple types => tuple (outlineAll types)
  | function args _ returns => function (outlineAll args) [] returns.outline
  | offset source target => offset source target
  | dimension name => dimension name

/-- Several types without their shapes and keyword parameters. -/
def outlineAll : List Ty → List Ty
  | [] => []
  | t :: ts => t.outline :: outlineAll ts

end

/-- Every dimension that is printed has a name without marks. -/
def IsNamed (t : Ty) : Prop := ∀ name ∈ t.dimensionNames, IsName nameMarks name

theorem dimensionNamesAll_eq_flatMap (ts : List Ty) :
    dimensionNamesAll ts = ts.flatMap dimensionNames := by
  induction ts with
  | nil => rfl
  | cons t ts ih => simp [dimensionNamesAll, ih]

theorem outlineAll_eq_map (ts : List Ty) : outlineAll ts = ts.map outline := by
  induction ts with
  | nil => rfl
  | cons t ts ih => simp [outlineAll, ih]

theorem isNamed_tuple_iff {types : List Ty} :
    (tuple types).IsNamed ↔ ∀ t ∈ types, t.IsNamed := by
  simp only [IsNamed, dimensionNames, dimensionNamesAll_eq_flatMap, List.mem_flatMap]
  exact ⟨fun h t ht name hname => h name ⟨t, ht, hname⟩,
    fun h name ⟨t, ht, hname⟩ => h t ht name hname⟩

theorem isNamed_function_iff {args : List Ty} {kwargs : List (String × Ty)} {returns : Ty} :
    (function args kwargs returns).IsNamed ↔ (∀ t ∈ args, t.IsNamed) ∧ returns.IsNamed := by
  rw [← isNamed_tuple_iff]
  simp only [IsNamed, dimensionNames, List.mem_append, or_imp, forall_and]

/-- The printed form depends on the outline only. -/
theorem render_outline (t : Ty) : t.outline.render = t.render := by
  induction t using Ty.ind with
  | deferred c => rfl
  | scalar s => rfl
  | field dims dtype => rfl
  | tuple types ih =>
    have hmembers : types.map (render ∘ outline) = types.map render := List.map_congr_left ih
    simp [outline, render, renderAll_eq_map, outlineAll_eq_map, hmembers]
  | function args kwargs returns ihargs ihreturns =>
    have hargs : args.map (render ∘ outline) = args.map render := List.map_congr_left ihargs
    simp [outline, render, renderAll_eq_map, outlineAll_eq_map, hargs, ihreturns]
  | offset source target => rfl
  | dimension name => rfl

/-! ## Reading types back -/

/-- The kind of a type; none if the type is deferred. -/
def kind? : Ty → Option Constraint
  | deferred _ => none
  | scalar _ => some .scalar
  | field _ _ => some .field
  | tuple _ => some .tuple
  | function _ _ _ => some .function
  | offset _ _ => some .offset
  | dimension _ => some .dimension

/-- The kind of the type that a text begins with. -/
def kindRead : List Char → Option Constraint
  | 'F' :: _ => some .field
  | 't' :: _ => some .tuple
  | '(' :: _ => some .function
  | 'O' :: _ => some .offset
  | 'D' :: 'i' :: _ => some .dimension
  | 'D' :: _ => none
  | _ => some .scalar

theorem kindRead_render_append (t : Ty) (r : List Char) :
    kindRead (t.render.toList ++ r) = t.kind? := by
  cases t with
  | deferred c => cases c <;> simp [render, kindRead, kind?]
  | scalar s => cases h : s.kind <;> simp [render, ScalarKind.name, h, kindRead, kind?]
  | field dims dtype => simp [render, kindRead, kind?]
  | tuple types => simp [render, kindRead, kind?]
  | function args kwargs returns => simp [render, kindRead, kind?]
  | offset source target => simp [render, kindRead, kind?]
  | dimension name => simp [render, kindRead, kind?]

theorem kind?_eq_of_append {a b : Ty} {r s : List Char}
    (h : a.render.toList ++ r = b.render.toList ++ s) : a.kind? = b.kind? := by
  rw [← kindRead_render_append a r, h, kindRead_render_append]

/-- No type is printed as nothing or begins with a closing bracket. -/
theorem not_stopsAt_render (t : Ty) : ¬ StopsAt [')', ']'] t.render.toList := by
  cases t with
  | deferred c => cases c <;> simp [render]
  | scalar s => cases h : s.kind <;> simp [render, ScalarKind.name, h]
  | field dims dtype => simp [render]
  | tuple types => simp [render]
  | function args kwargs returns => simp [render]
  | offset source target => simp [render]
  | dimension name => simp [render]

/-- A list of types can be read back if the types can. -/
theorem readsOff_types {close : Char} {ts us : List Ty} {r s : List Char}
    (hclose : close ∈ [')', ']'])
    (hitems : ∀ t ∈ ts, ∀ u ∈ us,
      ReadsOff endMarks t.render.toList u.render.toList (t.outline = u.outline))
    (h : (commaList (ts.map render)).toList ++ close :: r =
      (commaList (us.map render)).toList ++ close :: s) :
    outlineAll ts = outlineAll us ∧ r = s := by
  have hends : ∀ t : Ty, ¬ StopsAt [close] t.render.toList := by
    intro t hstop
    exact t.not_stopsAt_render (hstop.mono (by simpa using hclose))
  have hmark : close ∈ endMarks ∧ close ≠ ',' := by
    simp only [List.mem_cons, List.not_mem_nil, or_false] at hclose
    rcases hclose with rfl | rfl <;> simp [endMarks]
  rw [outlineAll_eq_map, outlineAll_eq_map]
  exact readsOff_commaList (by simp [endMarks]) hmark.1 hmark.2 hitems (fun t _ => hends t)
    (fun t _ => hends t) h

theorem readsOff_deferred (c d : Option Constraint) :
    ReadsOff endMarks (deferred c).render.toList (deferred d).render.toList (c = d) := by
  intro r s hr hs h
  -- An opening bracket tells a constraint, and no type is followed by one.
  cases c with
  | none =>
    cases d with
    | none => exact ⟨rfl, by simpa [render] using h⟩
    | some d =>
      have hbracket : r = '[' :: (d.name.toList ++ ']' :: s) := by simpa [render] using h
      simp [hbracket, endMarks] at hr
  | some c =>
    cases d with
    | none =>
      have hbracket : '[' :: (c.name.toList ++ ']' :: r) = s := by simpa [render] using h
      simp [← hbracket, endMarks] at hs
    | some d =>
      have hnames : c.name.toList ++ ']' :: r = d.name.toList ++ ']' :: s := by
        simpa [render] using h
      obtain ⟨rfl, hrest⟩ :=
        Constraint.readsOff_name c d _ _ (by simp [endMarks]) (by simp [endMarks]) hnames
      exact ⟨rfl, (List.cons.inj hrest).2⟩

theorem readsOff_field {dims dims' : Dims} {dtype dtype' : ScalarTy}
    (h : (field dims dtype).IsNamed) (h' : (field dims' dtype').IsNamed) :
    ReadsOff endMarks (field dims dtype).render.toList (field dims' dtype').render.toList
      (dims = dims' ∧ dtype.kind = dtype'.kind) := by
  intro r s _ _ heq
  have hdims : dims.render.toList ++ ',' :: ' ' :: (dtype.kind.name.toList ++ ']' :: r) =
      dims'.render.toList ++ ',' :: ' ' :: (dtype'.kind.name.toList ++ ']' :: s) := by
    simpa [render] using heq
  obtain ⟨rfl, hkinds⟩ := Dims.eq_of_render_append h h' hdims
  obtain ⟨hkind, hrest⟩ := ScalarKind.readsOff_name dtype.kind dtype'.kind _ _
    (by simp [endMarks]) (by simp [endMarks]) (List.cons.inj (List.cons.inj hkinds).2).2
  exact ⟨⟨rfl, hkind⟩, (List.cons.inj hrest).2⟩

theorem readsOff_offset {source source' : String} {target target' : List String}
    (h : (offset source target).IsNamed) (h' : (offset source' target').IsNamed) :
    ReadsOff endMarks (offset source target).render.toList (offset source' target').render.toList
      (source = source' ∧ target = target') := by
  intro r s _ _ heq
  obtain ⟨hsource, htarget⟩ := List.forall_mem_cons.mp h
  obtain ⟨hsource', htarget'⟩ := List.forall_mem_cons.mp h'
  have hsources : source.toList ++
        ' ' :: '-' :: '>' :: ' ' :: ((commaList target).toList ++ ']' :: r) =
      source'.toList ++
        ' ' :: '-' :: '>' :: ' ' :: ((commaList target').toList ++ ']' :: s) := by
    simpa [render] using heq
  obtain ⟨rfl, harrow⟩ := hsource.readsOff hsource' _ _ (by simp [nameMarks]) (by simp [nameMarks])
    hsources
  have htargets : (commaList target).toList ++ ']' :: r =
      (commaList target').toList ++ ']' :: s := by
    simpa using harrow
  obtain ⟨rfl, hrest⟩ := readsOff_names (by simp [nameMarks]) (by simp [nameMarks]) (by decide)
    htarget htarget' htargets
  exact ⟨⟨rfl, rfl⟩, hrest⟩

theorem readsOff_dimension {name name' : String}
    (h : (dimension name).IsNamed) (h' : (dimension name').IsNamed) :
    ReadsOff endMarks (dimension name).render.toList (dimension name').render.toList
      (name = name') := by
  intro r s _ _ heq
  have hnames : name.toList ++ ']' :: r = name'.toList ++ ']' :: s := by
    simpa [render] using heq
  obtain ⟨rfl, hrest⟩ := (h name List.mem_cons_self).readsOff (h' name' List.mem_cons_self) _ _
    (by simp [nameMarks]) (by simp [nameMarks]) hnames
  exact ⟨rfl, (List.cons.inj hrest).2⟩

/-- **A type can be read off any text that it is part of,** up to shapes and keyword parameters. -/
theorem readsOff_render (a : Ty) (ha : a.IsNamed) (b : Ty) (hb : b.IsNamed) :
    ReadsOff endMarks a.render.toList b.render.toList (a.outline = b.outline) := by
  intro r s hr hs h
  have hkind := kind?_eq_of_append h
  induction a using Ty.ind generalizing b r s with
  | deferred c =>
    cases b with
    | deferred d =>
      obtain ⟨rfl, hrest⟩ := readsOff_deferred c d r s hr hs h
      exact ⟨rfl, hrest⟩
    | _ => cases hkind
  | scalar k =>
    cases b with
    | scalar j =>
      obtain ⟨hname, hrest⟩ := ScalarKind.readsOff_name k.kind j.kind r s hr hs h
      exact ⟨by rw [outline, outline, hname], hrest⟩
    | _ => cases hkind
  | field dims dtype =>
    cases b with
    | field dims' dtype' =>
      obtain ⟨⟨hdims, hdtype⟩, hrest⟩ := readsOff_field ha hb r s hr hs h
      exact ⟨by rw [outline, outline, hdims, hdtype], hrest⟩
    | _ => cases hkind
  | tuple types ih =>
    cases b with
    | tuple types' =>
      have hlist : (commaList (types.map render)).toList ++ ']' :: r =
          (commaList (types'.map render)).toList ++ ']' :: s := by
        simpa [render, renderAll_eq_map] using h
      obtain ⟨htypes, hrest⟩ := readsOff_types (by simp) (fun t ht u hu r s hr hs h =>
        ih t ht (isNamed_tuple_iff.mp ha t ht) u (isNamed_tuple_iff.mp hb u hu) r s hr hs h
          (kind?_eq_of_append h)) hlist
      exact ⟨by rw [outline, outline, htypes], hrest⟩
    | _ => cases hkind
  | function args kwargs returns ihargs ihreturns =>
    cases b with
    | function args' kwargs' returns' =>
      obtain ⟨haargs, hareturns⟩ := isNamed_function_iff.mp ha
      obtain ⟨hbargs, hbreturns⟩ := isNamed_function_iff.mp hb
      have hlist : (commaList (args.map render)).toList ++
            ')' :: ' ' :: '-' :: '>' :: ' ' :: (returns.render.toList ++ r) =
          (commaList (args'.map render)).toList ++
            ')' :: ' ' :: '-' :: '>' :: ' ' :: (returns'.render.toList ++ s) := by
        simpa [render, renderAll_eq_map] using h
      obtain ⟨hargs, harrow⟩ := readsOff_types (by simp) (fun t ht u hu r s hr hs h =>
        ihargs t ht (haargs t ht) u (hbargs u hu) r s hr hs h (kind?_eq_of_append h)) hlist
      have hresult : returns.render.toList ++ r = returns'.render.toList ++ s := by
        simpa using harrow
      -- The result is the last part, so what ends it is what ends the function.
      obtain ⟨hreturns, hrest⟩ := ihreturns hareturns returns' hbreturns r s hr hs hresult
        (kind?_eq_of_append hresult)
      exact ⟨by rw [outline, outline, hargs, hreturns], hrest⟩
    | _ => cases hkind
  | offset source target =>
    cases b with
    | offset source' target' =>
      obtain ⟨⟨rfl, rfl⟩, hrest⟩ := readsOff_offset ha hb r s hr hs h
      exact ⟨rfl, hrest⟩
    | _ => cases hkind
  | dimension name =>
    cases b with
    | dimension name' =>
      obtain ⟨rfl, hrest⟩ := readsOff_dimension ha hb r s hr hs h
      exact ⟨rfl, hrest⟩
    | _ => cases hkind

/-- **Types are printed alike just when they differ in shapes and keyword parameters only.** -/
theorem render_eq_iff_outline_eq {a b : Ty} (ha : a.IsNamed) (hb : b.IsNamed) :
    a.render = b.render ↔ a.outline = b.outline := by
  constructor
  · intro h
    have htext : a.render.toList ++ [] = b.render.toList ++ [] := by rw [h]
    exact (readsOff_render a ha b hb [] [] stopsAt_nil stopsAt_nil htext).1
  · intro h
    rw [← render_outline a, h, render_outline]

/-- A shape and a keyword parameter do not show; which of two arrows is inside the other does. -/
theorem render_eq_iff_outline_eq_nested :
    let shaped : Ty := .function
      [.tuple [.function [] [] (.deferred none), .field .any { kind := .bool, shape := some [2] }],
        .offset "Edge" ["Vertex", "V2E"]]
      [("axis", .dimension "K")] (.field (.known ["I", "K"]) { kind := .float64 })
    let plain : Ty := .function
      [.tuple [.function [] [] (.deferred none), .field .any { kind := .bool }],
        .offset "Edge" ["Vertex", "V2E"]]
      [] (.field (.known ["I", "K"]) { kind := .float64 })
    let curried : Ty := .function [.dimension "I"] []
      (.function [.dimension "K"] [] (.deferred none))
    let nested : Ty := .function [.function [.dimension "I"] [] (.dimension "K")] []
      (.deferred none)
    (shaped.IsNamed ∧ plain.IsNamed ∧ shaped ≠ plain ∧ shaped.render = plain.render) ∧
      curried.IsNamed ∧ nested.IsNamed ∧ curried.render ≠ nested.render := by
  intro shaped plain curried nested
  have hshaped : shaped.IsNamed := by
    simp [shaped, IsNamed, dimensionNames, dimensionNamesAll, Dims.names, isName_iff, nameMarks]
  have hplain : plain.IsNamed := by
    simp [plain, IsNamed, dimensionNames, dimensionNamesAll, Dims.names, isName_iff, nameMarks]
  have hcurried : curried.IsNamed := by
    simp [curried, IsNamed, dimensionNames, dimensionNamesAll, isName_iff, nameMarks]
  have hnested : nested.IsNamed := by
    simp [nested, IsNamed, dimensionNames, dimensionNamesAll, isName_iff, nameMarks]
  refine ⟨⟨hshaped, hplain, by decide, ?_⟩, hcurried, hnested, ?_⟩
  · exact (render_eq_iff_outline_eq hshaped hplain).mpr rfl
  · rw [Ne, render_eq_iff_outline_eq hcurried hnested]
    decide

end Ty

end FieldView
