import Ruprizzle.Runtime.Arrays
import Ruprizzle.Data.Fallible

namespace Ruprizzle.Runtime.Arrays

open Fallible

variable {T : Type} {c : Crates T} {server : Server T}

-- The elements are of one type, or missing.
def Uniform (ty : ElementType) (values : List (Value T)) : Prop :=
  ∀ v ∈ values, v.isNull = true ∨ v.elementType = some ty

section Postgres

theorem isNull_eq_false {v : Value T} {ty : ElementType} (h : v.elementType = some ty) :
    v.isNull = false := by
  cases v with
  | null => cases h
  | _ => rfl

theorem isArray_eq_false {v : Value T} {ty : ElementType}
    (h : v.isNull = true ∨ v.elementType = some ty) : v.isArray = false := by
  cases v with
  | array values => rcases h with h | h <;> cases h
  | _ => rfl

theorem Uniform.not_nested {ty : ElementType} {values : List (Value T)} (h : Uniform ty values) :
    values.any Value.isArray = false := by
  rw [List.any_eq_false]
  intro v hv
  rw [isArray_eq_false (h v hv)]
  exact Bool.false_ne_true

theorem Uniform.firstType {ty : ElementType} {values : List (Value T)} (h : Uniform ty values) :
    firstType values = if values.all Value.isNull then none else some ty := by
  rw [Arrays.firstType]
  cases hfind : values.find? fun v => !v.isNull with
  | none =>
      have hall : values.all Value.isNull = true := by
        rw [List.all_eq_true]
        intro v hv
        simpa using List.find?_eq_none.mp hfind v hv
      rw [if_pos hall]
      rfl
  | some v =>
      have hv := List.mem_of_find?_eq_some hfind
      have hnull : v.isNull = false := by simpa using List.find?_some hfind
      have htype : v.elementType = some ty := by
        rcases h v hv with hyes | htype
        · rw [hnull] at hyes
          cases hyes
        · exact htype
      have hall : ¬values.all Value.isNull = true := by
        intro hall
        rw [List.all_eq_true.mp hall v hv] at hnull
        cases hnull
      rw [if_neg hall]
      exact htype

theorem Uniform.encoded {ty : ElementType} {values : List (Value T)} (h : Uniform ty values) :
    values.mapM (pgArrayEncode c ty) = .ok (values.map Value.toOption) := by
  refine mapM_ok_iff.mpr fun v hv => ?_
  rw [pgArrayEncode, Value.toOption]
  rcases h v hv with hnull | htype
  · rw [if_pos hnull, if_pos hnull]
  · rw [if_neg (by rw [isNull_eq_false htype]; exact Bool.false_ne_true), if_pos htype,
      if_neg (by rw [isNull_eq_false htype]; exact Bool.false_ne_true)]

theorem Uniform.encodePostgres {ty : ElementType} {values : List (Value T)} (h : Uniform ty values) :
    encodePostgres c values = .ok (if values.all Value.isNull then (.str, [])
      else (ty, values.map Value.toOption)) := by
  rw [Arrays.encodePostgres, if_neg (by rw [h.not_nested]; exact Bool.false_ne_true), h.firstType]
  by_cases hall : values.all Value.isNull = true
  · rw [if_pos hall, if_pos hall]
  · rw [if_neg hall, if_neg hall]
    show Except.map _ (values.mapM (pgArrayEncode c ty)) = _
    rw [h.encoded]
    rfl

end Postgres

-- What other code does: a document of null, truth values, texts and whole numbers is read as it
-- was printed, and so is what the other crates print. An array goes into a column of its type.
structure Faithful (c : Crates T) (server : Server T) : Prop where
  null : server.rereads .null = .ok .null
  bool : ∀ b, server.rereads (.bool b) = .ok (.bool b)
  string : ∀ s, server.rereads (.string s) = .ok (.string s)
  integer : ∀ i, server.rereads (intJson i) = .ok (intJson i)
  parsed : ∀ ty x, c.parsedFromJson ty (.string (c.print ty x)) = .ok x
  own : ∀ ty, server.assigns ty ty = true

-- An element that its JSON gives back.
def Rereads (server : Server T) : Value T → Prop
  | .f64 (.value (.finite negative mantissa exponent)) =>
      ∃ n, server.rereads (floatJson (.finite negative mantissa exponent)) = .ok (.number n) ∧
        n.asF64 = some (.finite negative mantissa exponent)
  | .f64 _ => False
  | .json v => v ≠ .null ∧ server.rereads v = .ok v
  | _ => True

section Document

theorem asJson_ok {v : Value T} (hbytes : v.elementType ≠ some .bytes) (harray : v.isArray = false) :
    ∃ j, asJson c v = .ok j := by
  cases v with
  | bytes b => exact absurd rfl hbytes
  | array values => cases harray
  | f64 x =>
      cases x with
      | nan => exact ⟨_, rfl⟩
      | value y => cases y <;> exact ⟨_, rfl⟩
  | _ => exact ⟨_, rfl⟩

theorem eachAsJson_eq (values : List (Value T)) : eachAsJson c values = values.mapM (asJson c) := by
  induction values with
  | nil => rfl
  | cons v rest ih =>
      rw [eachAsJson, ih, List.mapM_cons]
      rfl

variable (h : Faithful c server)

include h

theorem readElement_string {column : ElementType} (s : String) :
    readElement c server column (.string s) = fromJson c column (.string s) := by
  rw [readElement, h.string]
  rfl

theorem readElement_integer {column : ElementType} (i : Int) :
    readElement c server column (intJson i) = fromJson c column (intJson i) := by
  rw [readElement, h.integer]
  rfl

theorem readElement_null (column : ElementType) :
    readElement c server column .null = .ok none := by
  rw [readElement, h.null]
  cases column <;> rfl

-- What an element is read back as.
theorem readElement_iff {column : ElementType} {v : Value T} {j : Json}
    (htype : v.isNull = true ∨ v.elementType = some column) (hj : asJson c v = .ok j) :
    readElement c server column j = .ok v.toOption ↔ Rereads server v := by
  cases v with
  | null =>
      obtain rfl := Except.ok.inj hj
      exact iff_of_true (readElement_null h column) trivial
  | array values => rcases htype with htype | htype <;> cases htype
  | bytes b => cases hj
  | bool b =>
      obtain rfl := Except.ok.inj hj
      obtain rfl := Option.some.inj (htype.resolve_left Bool.false_ne_true)
      refine iff_of_true ?_ trivial
      rw [readElement, h.bool]
      rfl
  | i32 i =>
      obtain rfl := Except.ok.inj hj
      obtain rfl := Option.some.inj (htype.resolve_left Bool.false_ne_true)
      have hrange : Numeric.inI32 i.toInt = true := by
        have hlow := i.le_toInt
        have hhigh := i.toInt_lt
        exact decide_eq_true ⟨hlow, hhigh⟩
      have hread : fromJson c .i32 (intJson i.toInt) = if Numeric.inI32 i.toInt then
          .ok (some (.i32 (Int32.ofInt i.toInt))) else .error invalidType := rfl
      refine iff_of_true ?_ trivial
      rw [readElement_integer h, hread, if_pos hrange, Int32.ofInt_toInt]
      rfl
  | i64 i =>
      obtain rfl := Except.ok.inj hj
      obtain rfl := Option.some.inj (htype.resolve_left Bool.false_ne_true)
      have hread : fromJson c .i64 (intJson i.toInt) = .ok (some (.i64 (Int64.ofInt i.toInt))) := rfl
      refine iff_of_true ?_ trivial
      rw [readElement_integer h, hread, Int64.ofInt_toInt]
      rfl
  | str s =>
      obtain rfl := Except.ok.inj hj
      obtain rfl := Option.some.inj (htype.resolve_left Bool.false_ne_true)
      refine iff_of_true ?_ trivial
      rw [readElement_string h]
      rfl
  | parsed ty x =>
      obtain rfl := Except.ok.inj hj
      obtain rfl := Option.some.inj (htype.resolve_left Bool.false_ne_true)
      refine iff_of_true ?_ trivial
      have hread : fromJson c (.parsed ty) (.string (c.print ty x))
          = (c.parsedFromJson ty (.string (c.print ty x))).map fun x => some (.parsed ty x) := rfl
      rw [readElement_string h, hread, h.parsed]
      rfl
  | json v =>
      obtain rfl := Except.ok.inj hj
      obtain rfl := Option.some.inj (htype.resolve_left Bool.false_ne_true)
      by_cases hnull : v = .null
      · have hread := readElement_null h (.json)
        rw [hnull, hread]
        exact iff_of_false (by simp [Value.toOption, Value.isNull]) fun hsame => hsame.1 rfl
      · refine ⟨fun hread => ⟨hnull, ?_⟩, fun hsame => ?_⟩
        · rw [readElement] at hread
          cases hreread : server.rereads v with
          | error e =>
              rw [hreread] at hread
              cases hread
          | ok w =>
              rw [hreread] at hread
              have hjson : fromJson c .json w = .ok (some (.json v)) := hread
              cases w with
              | null => cases hjson
              | _ => exact congrArg Except.ok (Value.json.inj (Option.some.inj (Except.ok.inj hjson)))
        · rw [readElement, hsame.2]
          show fromJson c .json v = .ok (some (.json v))
          cases v with
          | null => exact absurd rfl hnull
          | _ => rfl
  | f64 x =>
      obtain rfl := Option.some.inj (htype.resolve_left Bool.false_ne_true)
      have hinfinite : j = .null → Rereads server (.f64 x) = False →
          (readElement c server .f64 j = .ok (Value.f64 x).toOption ↔ Rereads server (.f64 x)) := by
        rintro rfl hno
        rw [readElement_null h, hno]
        exact iff_of_false (by simp [Value.toOption, Value.isNull]) id
      cases x with
      | nan => exact hinfinite (Except.ok.inj hj).symm rfl
      | value y =>
          cases y with
          | infinite negative => exact hinfinite (Except.ok.inj hj).symm rfl
          | finite negative mantissa exponent =>
              obtain rfl := Except.ok.inj hj
              rw [readElement, Rereads]
              cases hreread : server.rereads (floatJson (.finite negative mantissa exponent)) with
              | error e => exact iff_of_false (by simp [bind, Except.bind]) (by simp)
              | ok w =>
                  show fromJson c .f64 w = _ ↔ _
                  cases w with
                  | number n =>
                      cases hfloat : n.asF64 with
                      | none =>
                          have hread : fromJson c .f64 (.number n) = .error invalidType := by
                            simp only [fromJson, hfloat]
                          rw [hread]
                          exact iff_of_false (by simp) (by simp [hfloat])
                      | some y =>
                          have hread : fromJson c .f64 (.number n) = .ok (some (.f64 (.value y))) := by
                            simp only [fromJson, hfloat]
                          rw [hread]
                          simp [Value.toOption, Value.isNull, hfloat]
                  | _ => exact iff_of_false (by simp [fromJson, Value.toOption, Value.isNull]) (by simp)

end Document

-- An array is kept as it is bound.
def Kept (server : Server T) (backend : Backend) (column : ElementType) (values : List (Value T)) :
    Prop :=
  match backend with
  | .any => True
  | .postgres | .tokioPostgres =>
      (values.all Value.isNull = true → values = [] ∨ server.assigns .str column = false) ∧
        ((∃ v ∈ values, v.isNull = false ∧ ∃ e, server.keeps column v = .error e) ∨
          ∀ v ∈ values, v.isNull = false → server.keeps column v = .ok v)
  | .mysql | .sqlite | .rusqlite => ∀ v ∈ values, Rereads server v

section Law

variable (h : Faithful c server) {column : ElementType} {values : List (Value T)}
  (huniform : Uniform column values)

include h huniform

theorem document_iff :
    (∀ cell, (arrayToJson c values).map Cell.document = .ok cell →
      decodeArray c server column cell = .ok (values.map Value.toOption)) ↔
      ∀ v ∈ values, Rereads server v := by
  have hjson : arrayToJson c values = values.mapM (asJson c) := by
    rw [arrayToJson, if_neg (by rw [huniform.not_nested]; exact Bool.false_ne_true), eachAsJson_eq]
  rw [hjson]
  by_cases hbytes : ∃ v ∈ values, v.elementType = some .bytes
  · -- an array of byte strings is refused, and a missing element is always kept
    obtain ⟨v, hv, htype⟩ := hbytes
    have hrefused : ∃ e, values.mapM (asJson c) = .error e := by
      refine mapM_error_iff.mpr ⟨v, hv, ?_⟩
      cases v with
      | bytes b => exact ⟨_, rfl⟩
      | _ => cases htype
    obtain ⟨e, he⟩ := hrefused
    refine iff_of_true (fun cell hcell => by rw [he] at hcell; cases hcell) fun w hw => ?_
    have hcolumn : column = .bytes := by
      rcases huniform v hv with hnull | hsame
      · rw [isNull_eq_false htype] at hnull
        cases hnull
      · exact Option.some.inj (hsame.symm.trans htype)
    rcases huniform w hw with hnull | hsame
    · cases w with
      | null => trivial
      | _ => cases hnull
    · cases w with
      | bytes b => trivial
      | null => trivial
      | _ =>
          rw [hcolumn] at hsame
          cases hsame
  · have hok : ∀ v ∈ values, ∃ j, asJson c v = .ok j := fun v hv =>
      asJson_ok (fun htype => hbytes ⟨v, hv, htype⟩) (isArray_eq_false (huniform v hv))
    have hall : ∃ items, values.mapM (asJson c) = .ok items ∧
        (items.mapM (readElement c server column) = .ok (values.map Value.toOption) ↔
          ∀ v ∈ values, Rereads server v) := by
      clear hjson hbytes
      induction values with
      | nil => exact ⟨[], rfl, by simp [pure, Except.pure]⟩
      | cons v rest ih =>
          obtain ⟨hfirst, hrest⟩ := List.forall_mem_cons.mp hok
          obtain ⟨j, hj⟩ := hfirst
          obtain ⟨items, hitems, hiff⟩ := ih (fun w hw => huniform w (List.mem_cons_of_mem v hw)) hrest
          refine ⟨j :: items, by rw [List.mapM_cons, hj, hitems]; rfl, ?_⟩
          rw [List.forall_mem_cons, ← hiff, ← readElement_iff h (huniform v List.mem_cons_self) hj,
            List.mapM_cons, List.map_cons]
          cases hread : readElement c server column j with
          | error e => simp [bind, Except.bind]
          | ok read =>
              cases hmore : items.mapM (readElement c server column) with
              | error e => simp [bind, Except.bind]
              | ok more => simp [bind, Except.bind, pure, Except.pure]
    obtain ⟨items, hitems, hiff⟩ := hall
    rw [hitems, ← hiff]
    refine ⟨fun hcell => hcell (.document items) rfl, fun hread cell hcell => ?_⟩
    obtain rfl := Except.ok.inj hcell
    exact hread

omit h huniform in
theorem keepElement_error {v : Value T} :
    (∃ e, keepElement server column v.toOption = .error e) ↔
      v.isNull = false ∧ ∃ e, server.keeps column v = .error e := by
  rw [Value.toOption]
  cases hnull : v.isNull with
  | true => simp [keepElement]
  | false =>
      cases hkeeps : server.keeps column v <;> simp [keepElement, hkeeps, Except.map]

omit h huniform in
theorem keepElement_ok {v : Value T} :
    keepElement server column v.toOption = .ok v.toOption ↔
      (v.isNull = false → server.keeps column v = .ok v) := by
  rw [Value.toOption]
  cases hnull : v.isNull with
  | true => simp [keepElement]
  | false =>
      cases hkeeps : server.keeps column v <;> simp [keepElement, hkeeps, Except.map]

-- A parameter that goes into the column gives its elements as the database keeps them.
theorem native_iff {backend : Backend} (hbackend : backend = .postgres ∨ backend = .tokioPostgres) :
    (∀ cell, store c server backend column values = .ok cell →
      decodeArray c server column cell = .ok (values.map Value.toOption)) ↔
      Kept server backend column values := by
  have hstore : store c server backend column values = (encodePostgres c values).bind fun p =>
      if server.assigns p.1 column then
        (p.2.mapM (keepElement server column)).bind fun kept => .ok (.native kept)
      else .error "column is of another type than the expression" := by
    rcases hbackend with rfl | rfl <;> rfl
  have hkept : Kept server backend column values ↔
      (values.all Value.isNull = true → values = [] ∨ server.assigns .str column = false) ∧
        ((∃ v ∈ values, v.isNull = false ∧ ∃ e, server.keeps column v = .error e) ∨
          ∀ v ∈ values, v.isNull = false → server.keeps column v = .ok v) := by
    rcases hbackend with rfl | rfl <;> exact Iff.rfl
  rw [hstore, hkept, huniform.encodePostgres]
  by_cases hall : values.all Value.isNull = true
  · have hsecond : ∀ v ∈ values, v.isNull = false → server.keeps column v = .ok v := by
      intro v hv hnull
      rw [List.all_eq_true.mp hall v hv] at hnull
      cases hnull
    rw [if_pos hall]
    show (∀ cell, (if server.assigns .str column then _ else _) = _ → _) ↔ _
    cases hassigns : server.assigns .str column with
    | false =>
        refine iff_of_true (fun cell hcell => ?_) ⟨fun _ => .inr rfl, .inr hsecond⟩
        rw [if_neg Bool.false_ne_true] at hcell
        cases hcell
    | true =>
        rw [if_pos rfl]
        refine ⟨fun hcell => ⟨fun _ => .inl ?_, .inr hsecond⟩, fun hempty cell hcell => ?_⟩
        · have hnil := Except.ok.inj (hcell (.native []) rfl)
          exact List.map_eq_nil_iff.mp hnil.symm
        · obtain rfl := (hempty.1 hall).resolve_right fun hno => by cases hno
          cases hcell
          rfl
  · rw [if_neg hall]
    show (∀ cell, (if server.assigns column column then
      ((values.map Value.toOption).mapM (keepElement server column)).bind _ else _) = _ → _) ↔ _
    rw [h.own, if_pos rfl, List.mapM_map]
    have hexact : (∀ out, values.mapM (fun v => keepElement server column v.toOption) = .ok out →
        out = values.map Value.toOption) ↔ _ := mapM_exact
    have hitems : ((∃ v ∈ values, v.isNull = false ∧ ∃ e, server.keeps column v = .error e) ∨
        ∀ v ∈ values, v.isNull = false → server.keeps column v = .ok v) ↔ _ :=
      (or_congr (exists_congr fun v => and_congr_right fun _ => keepElement_error.symm)
        (forall₂_congr fun v _ => keepElement_ok.symm)).trans hexact.symm
    rw [hitems]
    refine ⟨fun hcell => ⟨fun hyes => absurd hyes hall, fun out hout => ?_⟩, fun hout cell hcell => ?_⟩
    · refine Except.ok.inj (hcell (.native out) ?_)
      show Except.bind (values.mapM fun v => keepElement server column v.toOption) _ = _
      rw [hout]
      rfl
    · cases hmapped : values.mapM fun v => keepElement server column v.toOption with
      | error e =>
          have hmapped' : values.mapM (keepElement server column ∘ Value.toOption) = .error e := hmapped
          rw [hmapped'] at hcell
          cases hcell
      | ok out =>
          have hmapped' : values.mapM (keepElement server column ∘ Value.toOption) = .ok out := hmapped
          rw [hmapped'] at hcell
          cases hcell
          exact congrArg Except.ok (hout.2 out hmapped)

-- What is bound is refused, or read back as it was, where no array of missing elements goes into
-- a column of texts and JSON and the database give each element back.
theorem arrays_kept_iff (backend : Backend) :
    (∀ cell, store c server backend column values = .ok cell →
      decodeArray c server column cell = .ok (values.map Value.toOption)) ↔
      Kept server backend column values := by
  cases backend with
  | any => exact iff_of_true (fun cell hcell => by cases hcell) trivial
  | postgres => exact native_iff h huniform (.inl rfl)
  | tokioPostgres => exact native_iff h huniform (.inr rfl)
  | mysql => exact document_iff h huniform
  | sqlite => exact document_iff h huniform
  | rusqlite => exact document_iff h huniform

end Law

-- Other crates whose values are their texts, and a database that keeps what it is given.
def texts : Crates String where
  print _ x := x
  typeName _ := "alloc::string::String"
  debug _ := "Null"
  parsedFromJson _ j :=
    match j with
    | .string s => .ok s
    | _ => .error invalidType
  bytesFromJson _ := .error invalidType

def keeper : Server String where
  assigns ty column := ty = column
  keeps _ v := .ok v
  rereads j := .ok j

theorem keeper_faithful : Faithful texts keeper where
  null := rfl
  bool _ := rfl
  string _ := rfl
  integer _ := rfl
  parsed _ _ := rfl
  own _ := decide_eq_true rfl

theorem arrays_kept_texts :
    (∀ cell, store texts keeper .sqlite .str [.str "a", .null] = .ok cell →
      decodeArray texts keeper .str cell = .ok ([.str "a", .null].map Value.toOption)) ↔
      Kept keeper .sqlite .str [.str "a", .null] :=
  arrays_kept_iff keeper_faithful (by simp [Uniform, Value.isNull, Value.elementType]) .sqlite

-- Missing texts are bound as no texts at all, and an infinite number as a missing one.
theorem arrays_lost :
    (¬∀ values : List (Value String), Uniform .str values → ∀ cell,
      store texts keeper .postgres .str values = .ok cell →
        decodeArray texts keeper .str cell = .ok (values.map Value.toOption)) ∧
      ¬∀ values : List (Value String), Uniform .f64 values → ∀ cell,
        store texts keeper .sqlite .f64 values = .ok cell →
          decodeArray texts keeper .f64 cell = .ok (values.map Value.toOption) := by
  refine ⟨fun hall => ?_, fun hall => ?_⟩
  · have hread := hall [.null, .null] (by simp [Uniform, Value.isNull]) (.native []) rfl
    cases hread
  · have hread := hall [.f64 (.value (.infinite false))] (by simp [Uniform, Value.elementType])
      (.document [.null]) rfl
    cases hread

end Ruprizzle.Runtime.Arrays
