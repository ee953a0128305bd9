import Assembly.Proofs.Machine.Width
import Assembly.Proofs.Symbol.Name
import Assembly.Proofs.Text.Lines
import Assembly.Proofs.Text.Quoted

/-!
# Reading lists of data

An assembler reads the list behind a data directive item by item: a run between double quotes,
in which nothing is escaped, or the decimal value of a byte.  Items are divided by a comma and a
space.  What `Content.text` writes for a text is read as the text with its terminator.
-/

namespace Assembly

/-! ## The reader -/

/-- Where the reading of a list is: in front of an item, in a run, in a number, behind a run, or
behind a comma. -/
inductive ListPlace
  | item
  | run (t : Text)
  | number (n : Nat)
  | closed
  | comma

/-- The items of a list, read from a place in it. -/
def readItems? : ListPlace → Text → Option (List DataItem)
  | .closed, [] => some []
  | .number n, [] => if n < 256 then some [.value n.toUInt8] else none
  | _, [] => none
  | .item, c :: r =>
    if c = 34 then readItems? (.run []) r
    else if Text.isDigit c then readItems? (.number (Text.digitValue c)) r
    else none
  | .run t, c :: r =>
    if c = 34 then (readItems? .closed r).map (.run t :: ·) else readItems? (.run (t ++ [c])) r
  | .number n, c :: r =>
    if Text.isDigit c then readItems? (.number (n * 10 + Text.digitValue c)) r
    else if c = 44 ∧ n < 256 then (readItems? .comma r).map (.value n.toUInt8 :: ·)
    else none
  | .closed, c :: r => if c = 44 then readItems? .comma r else none
  | .comma, c :: r => if c = 32 then readItems? .item r else none

namespace DataItem

/-- The bytes that an item fills in units of the given size: a run is filled up with zeros, and a
number takes one unit. -/
def fill (unit : Nat) : DataItem → Text
  | run t => t ++ List.replicate ((unit - t.length % unit) % unit) 0
  | value b => b :: List.replicate (unit - 1) 0

/-- Nothing in the item ends it early. -/
def isReadable : DataItem → Bool
  | run t => !t.contains 34
  | value _ => true

/-- The items that a text is written as. -/
def list (t : Text) : List DataItem := if t.isEmpty then [run []] else ofText t

end DataItem

/-- What stands behind a name on a line of data: the unit that the directive says, by its word of
two letters, and the list. -/
def readData? (t : Text) : Option (Nat × List DataItem) := do
  let unit ← dataUnit? (t.take 2)
  let list ← Text.after? " " (t.drop 2)
  return (unit, ← readItems? .item list)

/-- The bytes that a datum stores, by its line. -/
def Datum.stored? (d : Datum) : Option Text := do
  let (unit, is) ← (Text.after? ("    " ++ d.name ++ ": ") d.text).bind readData?
  return is.flatMap (DataItem.fill unit)

/-! ## Reading what is written -/

section

variable (c : UInt8) (r : Text)

theorem readItems?_item_cons : readItems? .item (c :: r) =
    if c = 34 then readItems? (.run []) r
    else if Text.isDigit c then readItems? (.number (Text.digitValue c)) r
    else none := rfl

theorem readItems?_run_cons (t : Text) : readItems? (.run t) (c :: r) =
    if c = 34 then (readItems? .closed r).map (.run t :: ·) else readItems? (.run (t ++ [c])) r := rfl

theorem readItems?_number_cons (n : Nat) : readItems? (.number n) (c :: r) =
    if Text.isDigit c then readItems? (.number (n * 10 + Text.digitValue c)) r
    else if c = 44 ∧ n < 256 then (readItems? .comma r).map (.value n.toUInt8 :: ·)
    else none := rfl

theorem readItems?_number_nil (n : Nat) :
    readItems? (.number n) [] = if n < 256 then some [.value n.toUInt8] else none := rfl

theorem readItems?_separator : readItems? .closed (44 :: 32 :: r) = readItems? .item r := rfl

end

theorem readItems?_run (t r acc : Text) (h : 34 ∉ t) :
    readItems? (.run acc) (t ++ 34 :: r) = (readItems? .closed r).map (.run (acc ++ t) :: ·) := by
  induction t generalizing acc with
  | nil => rw [List.nil_append, readItems?_run_cons, if_pos rfl, List.append_nil]
  | cons c t ih =>
    rw [List.mem_cons, not_or] at h
    rw [List.cons_append, readItems?_run_cons, if_neg (Ne.symm h.1), ih _ h.2, List.append_assoc]
    rfl

theorem readItems?_number {ds : Text} (h : ∀ c ∈ ds, Text.isDigit c) (n : Nat) (r : Text) :
    readItems? (.number n) (ds ++ r) =
      readItems? (.number (ds.foldl (fun n c => n * 10 + Text.digitValue c) n)) r := by
  induction ds generalizing n with
  | nil => rfl
  | cons c ds ih =>
    rw [List.cons_append, readItems?_number_cons, if_pos (h c List.mem_cons_self),
      ih fun d hd => h d (List.mem_cons_of_mem c hd)]
    rfl

theorem readItems?_ofNat (n : Nat) (r : Text) :
    readItems? .item (Text.ofNat n ++ r) = readItems? (.number n) r := by
  have hvalue := Text.digitsValue_ofNat n
  have hdigits : ∀ c ∈ Text.ofNat n, Text.isDigit c := fun c hc => Text.isDigit_of_mem_ofNat hc
  have hpos : 0 < (Text.ofNat n).length := by
    rw [Text.ofNat, List.length_map]
    exact Nat.length_toDigits_pos
  cases hn : Text.ofNat n with
  | nil =>
    rw [hn] at hpos
    cases hpos
  | cons c ds =>
    rw [hn] at hvalue hdigits
    have hc := hdigits c List.mem_cons_self
    have hquote : c ≠ 34 := by
      rintro rfl
      cases hc
    rw [List.cons_append, readItems?_item_cons, if_neg hquote, if_pos hc,
      readItems?_number fun d hd => hdigits d (List.mem_cons_of_mem c hd)]
    have hfold : ds.foldl (fun n c => n * 10 + Text.digitValue c) (Text.digitValue c) = n := by
      rw [Text.digitsValue, List.foldl_cons, Nat.zero_mul, Nat.zero_add] at hvalue
      exact hvalue
    rw [hfold]

theorem readItems?_value (b : UInt8) (r : Text) (hr : r = [] ∨ ∃ r', r = 44 :: r') :
    readItems? .item (DataItem.text (.value b) ++ r) = (readItems? .closed r).map (.value b :: ·) := by
  have hlt := b.toNat_lt
  have hb : b.toNat.toUInt8 = b := Rune.toUInt8_eq rfl
  rw [DataItem.text, readItems?_ofNat]
  rcases hr with rfl | ⟨r', rfl⟩
  · rw [readItems?_number_nil, if_pos hlt, hb]
    rfl
  · have hcomma : ¬Text.isDigit 44 := by decide
    rw [readItems?_number_cons, if_neg hcomma, if_pos ⟨rfl, hlt⟩, hb]
    rfl

theorem readItems?_text {i : DataItem} (hi : i.isReadable) {r : Text} (hr : r = [] ∨ ∃ r', r = 44 :: r') :
    readItems? .item (i.text ++ r) = (readItems? .closed r).map (i :: ·) := by
  cases i with
  | value b => exact readItems?_value b r hr
  | run t =>
    simp only [DataItem.isReadable, Bool.not_eq_true', List.contains_eq_mem, decide_eq_false_iff_not] at hi
    rw [DataItem.text, List.cons_append, List.append_assoc, readItems?_item_cons, if_pos rfl]
    exact readItems?_run t r [] hi

theorem readItems?_join {is : List DataItem} (hne : is ≠ []) (his : ∀ i ∈ is, i.isReadable) :
    readItems? .item (Text.join ", " (is.map (·.text))) = some is := by
  induction is with
  | nil => exact absurd rfl hne
  | cons i is ih =>
    have hi := his i List.mem_cons_self
    cases is with
    | nil =>
      have hread := readItems?_text hi (.inl rfl)
      rw [List.append_nil] at hread
      exact hread
    | cons j is =>
      have hrest := ih (List.cons_ne_nil j is) fun k hk => his k (List.mem_cons_of_mem i hk)
      show readItems? .item (i.text ++ (44 :: 32 :: Text.join ", " ((j :: is).map (·.text)))) = _
      rw [readItems?_text hi (.inr ⟨_, rfl⟩), readItems?_separator, hrest, Option.map_some]

/-! ## Texts as lists of items -/

namespace DataItem

theorem ofText_cons (c : UInt8) (r : Text) :
    ofText (c :: r) = value c :: ofText r ∧ isPlain c = false ∨
      isPlain c ∧ ((∃ t rest, ofText r = run t :: rest ∧ ofText (c :: r) = run (c :: t) :: rest) ∨
        ofText (c :: r) = run [c] :: ofText r) := by
  rw [ofText]
  cases hc : isPlain c with
  | false => exact .inl ⟨rfl, rfl⟩
  | true =>
    refine .inr ⟨rfl, ?_⟩
    rw [if_pos rfl]
    split
    next t rest h => exact .inl ⟨t, rest, h, rfl⟩
    next => exact .inr rfl

theorem ofText_ne_nil {t : Text} (h : t ≠ []) : ofText t ≠ [] := by
  cases t with
  | nil => exact absurd rfl h
  | cons c r =>
    rcases ofText_cons c r with ⟨heq, -⟩ | ⟨-, ⟨_, _, -, heq⟩ | heq⟩ <;> simp [heq]

theorem flatMap_bytes_ofText (t : Text) : (ofText t).flatMap bytes = t := by
  induction t with
  | nil => rfl
  | cons c r ih =>
    rcases ofText_cons c r with ⟨heq, -⟩ | ⟨-, ⟨u, rest, hr, heq⟩ | heq⟩
    · rw [heq, List.flatMap_cons, ih]
      rfl
    · rw [hr] at ih
      rw [heq, ← ih]
      rfl
    · rw [heq, List.flatMap_cons, ih]
      rfl

theorem ne_quote_of_isPlain {c : UInt8} (h : isPlain c) : (34 : UInt8) ≠ c := by
  rintro rfl
  cases h

theorem printable_of_isPlain {c : UInt8} (h : isPlain c) : 32 ≤ c ∧ c ≤ 126 := by
  simp only [isPlain, Bool.and_eq_true, decide_eq_true_eq] at h
  exact h.1.1

theorem isPlain_of_mem_ofText {t u : Text} (h : run u ∈ ofText t) : ∀ c ∈ u, isPlain c := by
  induction t generalizing u with
  | nil => cases h
  | cons c r ih =>
    rcases ofText_cons c r with ⟨heq, -⟩ | ⟨hc, ⟨v, rest, hr, heq⟩ | heq⟩
    · rw [heq] at h
      rcases List.mem_cons.mp h with h | h
      · cases h
      · exact ih h
    · -- The first run of the rest of the text is the one that `c` joins.
      rw [hr] at ih
      rw [heq] at h
      rcases List.mem_cons.mp h with h | h
      · cases h
        exact List.forall_mem_cons.mpr ⟨hc, ih List.mem_cons_self⟩
      · exact ih (List.mem_cons_of_mem _ h)
    · rw [heq] at h
      rcases List.mem_cons.mp h with h | h
      · cases h
        exact List.forall_mem_singleton.mpr hc
      · exact ih h

theorem list_ne_nil (t : Text) : list t ≠ [] := by
  rw [list]
  cases t with
  | nil => exact List.cons_ne_nil _ _
  | cons c r => exact ofText_ne_nil (List.cons_ne_nil c r)

theorem flatMap_bytes_list (t : Text) : (list t).flatMap bytes = t := by
  rw [list]
  cases t with
  | nil => rfl
  | cons c r => exact flatMap_bytes_ofText (c :: r)

theorem isPlain_of_mem_list {t u : Text} (h : run u ∈ list t) : ∀ c ∈ u, isPlain c := by
  rw [list] at h
  cases t with
  | nil =>
    cases List.mem_singleton.mp h
    exact List.forall_mem_nil _
  | cons c r => exact isPlain_of_mem_ofText h

theorem isReadable_list (t : Text) : ∀ i ∈ list t, i.isReadable := by
  intro i hi
  cases i with
  | value b => rfl
  | run u =>
    have hquote : 34 ∉ u := fun h => ne_quote_of_isPlain (isPlain_of_mem_list hi 34 h) rfl
    simp [isReadable, hquote]

/-- The spelling of an item is printable: the run is, and so are quotes and digits. -/
theorem printable_of_mem_list {t : Text} {i : DataItem} (hi : i ∈ list t) :
    ∀ c ∈ i.text, 32 ≤ c ∧ c ≤ 126 := by
  intro c hc
  cases i with
  | value b =>
    have hdigit := Text.isDigit_of_mem_ofNat hc
    simp only [Text.isDigit, Bool.and_eq_true, decide_eq_true_eq] at hdigit
    exact ⟨UInt8.le_trans (by decide) hdigit.1, UInt8.le_trans hdigit.2 (by decide)⟩
  | run u =>
    have hquote : (32 : UInt8) ≤ 34 ∧ (34 : UInt8) ≤ 126 := by decide
    simp only [text, List.mem_cons, List.mem_append, List.not_mem_nil, or_false] at hc
    rcases hc with rfl | hc | rfl
    · exact hquote
    · exact printable_of_isPlain (isPlain_of_mem_list hi c hc)
    · exact hquote

end DataItem

theorem Text.join_append_singleton (sep : Text) {ts : List Text} (h : ts ≠ []) (u : Text) :
    join sep (ts ++ [u]) = join sep ts ++ sep ++ u := by
  induction ts with
  | nil => exact absurd rfl h
  | cons t ts ih =>
    cases ts with
    | nil => simp [join]
    | cons v ts =>
      have hrest := ih (List.cons_ne_nil v ts)
      rw [List.cons_append, List.cons_append, join, ← List.cons_append, hrest, join]
      simp only [List.append_assoc]

theorem Text.mem_join {sep : Text} {ts : List Text} {c : UInt8} (h : c ∈ join sep ts) :
    c ∈ sep ∨ ∃ t ∈ ts, c ∈ t := by
  induction ts with
  | nil => cases h
  | cons t ts ih =>
    cases ts with
    | nil => exact .inr ⟨t, List.mem_cons_self, h⟩
    | cons u ts =>
      rw [join, List.mem_append, List.mem_append] at h
      rcases h with h | h | h
      · exact .inr ⟨t, List.mem_cons_self, h⟩
      · exact .inl h
      · rcases ih h with h | ⟨v, hv, hc⟩
        · exact .inl h
        · exact .inr ⟨v, List.mem_cons_of_mem t hv, hc⟩

/-! ## The list of a text -/

theorem dataList_eq (t : Text) : dataList t = Text.join ", " ((DataItem.list t).map (·.text)) := by
  rw [dataList, DataItem.list]
  split <;> rfl

theorem readItems?_dataList (t : Text) : readItems? .item (dataList t) = some (DataItem.list t) := by
  rw [dataList_eq]
  exact readItems?_join (DataItem.list_ne_nil t) (DataItem.isReadable_list t)

/-- A list is read as the text that it was written for. -/
theorem bytes_readItems?_dataList (t : Text) :
    (readItems? .item (dataList t)).map (·.flatMap DataItem.bytes) = some t := by
  rw [readItems?_dataList, Option.map_some, DataItem.flatMap_bytes_list]

theorem dataList_injective : Function.Injective dataList := by
  intro t u h
  have hread := bytes_readItems?_dataList t
  rw [h, bytes_readItems?_dataList] at hread
  exact (Option.some.inj hread).symm

theorem printable_of_mem_dataList {t : Text} {c : UInt8} (h : c ∈ dataList t) : 32 ≤ c ∧ c ≤ 126 := by
  have hseparator : (", " : Text).all fun c => 32 ≤ c ∧ c ≤ 126 := by decide
  rw [dataList_eq] at h
  rcases Text.mem_join h with h | ⟨u, hu, hc⟩
  · exact of_decide_eq_true (List.all_eq_true.mp hseparator c h)
  · obtain ⟨i, hi, rfl⟩ := List.mem_map.mp hu
    exact DataItem.printable_of_mem_list hi c hc

theorem lines_dataList (t : Text) : Text.lines (dataList t) = [dataList t] := by
  refine Text.split_of_notMem fun h => ?_
  have hprintable := (printable_of_mem_dataList h).1
  exact absurd hprintable (by decide)

theorem Content.text_bytes (t : Text) (b : UInt8) :
    (Content.bytes t b).text = Text.join ", " ((DataItem.list t ++ [DataItem.value b]).map (·.text)) := by
  have hne : (DataItem.list t).map (·.text) ≠ [] := by
    rw [ne_eq, List.map_eq_nil_iff]
    exact DataItem.list_ne_nil t
  rw [Content.text, List.map_append, List.map_singleton, Text.join_append_singleton _ hne, dataList_eq]
  rfl

namespace Datum

variable {name : Text} {d : Directive} {t : Text} {b : UInt8}

/-- A directive is a word of two letters. -/
theorem readData?_append {t : Text} {is : List DataItem} (h : readItems? .item t = some is) :
    readData? (d.text ++ (" " ++ t)) = some (d.unit, is) := by
  have htwo : d.text.length = 2 := by cases d <;> rfl
  have hunit := dataUnit?_text d
  have hlist : Text.after? " " (" " ++ t) = some t := Text.after?_append _ t
  rw [readData?, List.take_left' htwo, List.drop_left' htwo, hunit, hlist, Option.bind_eq_bind,
    Option.bind_some, Option.bind_eq_bind, Option.bind_some, h]
  rfl

theorem stored?_bytes : (⟨name, d, .bytes t b⟩ : Datum).stored? =
    some ((DataItem.list t ++ [DataItem.value b]).flatMap (DataItem.fill d.unit)) := by
  have hreadable : ∀ i ∈ DataItem.list t ++ [DataItem.value b], i.isReadable := by
    intro i hi
    rcases List.mem_append.mp hi with hi | hi
    · exact DataItem.isReadable_list t i hi
    · rw [List.mem_singleton.mp hi]
      rfl
  have hlist : readItems? .item (Content.bytes t b).text =
      some (DataItem.list t ++ [DataItem.value b]) := by
    rw [Content.text_bytes]
    exact readItems?_join (by simp) hreadable
  have hline : (⟨name, d, .bytes t b⟩ : Datum).text =
      "    " ++ name ++ ": " ++ (d.text ++ (" " ++ (Content.bytes t b).text)) := by
    simp only [text, List.append_assoc]
  rw [stored?, hline, Text.after?_append, Option.bind_some, readData?_append hlist]
  rfl

/-- By bytes a text and its terminator are stored as they are. -/
theorem stored?_db : (⟨name, .db, .bytes t b⟩ : Datum).stored? = some (t ++ [b]) := by
  have hfill : DataItem.fill 1 = DataItem.bytes := by
    funext i
    cases i with
    | run t => simp [DataItem.fill, DataItem.bytes, Nat.mod_one]
    | value b => rfl
  rw [stored?_bytes]
  show some ((DataItem.list t ++ [DataItem.value b]).flatMap (DataItem.fill 1)) = _
  rw [hfill, List.flatMap_append, DataItem.flatMap_bytes_list]
  rfl

/-- What units of more than a byte add are zeros. -/
theorem countP_stored? {p : UInt8 → Bool} (hp : p 0 = false) {u : Text}
    (h : (⟨name, d, .bytes t b⟩ : Datum).stored? = some u) : u.countP p = (t ++ [b]).countP p := by
  have hfill : ∀ is : List DataItem,
      (is.flatMap (DataItem.fill d.unit)).countP p = (is.flatMap DataItem.bytes).countP p := by
    intro is
    induction is with
    | nil => rfl
    | cons i is ih =>
      rw [List.flatMap_cons, List.flatMap_cons, List.countP_append, List.countP_append, ih]
      cases i with
      | run t => simp [DataItem.fill, DataItem.bytes, List.countP_replicate, hp]
      | value b => simp [DataItem.fill, DataItem.bytes, List.countP_cons, List.countP_replicate, hp]
  rw [stored?_bytes] at h
  cases h
  rw [hfill, List.flatMap_append, DataItem.flatMap_bytes_list]
  rfl

/-- A text takes up its bytes and no more only if it is stored by bytes. -/
theorem db_of_stored? (h : (⟨name, d, .bytes t b⟩ : Datum).stored? = some (t ++ [b])) : d = .db := by
  have hlength : ∀ is : List DataItem,
      (is.flatMap DataItem.bytes).length ≤ (is.flatMap (DataItem.fill d.unit)).length := by
    intro is
    induction is with
    | nil => exact Nat.le_refl 0
    | cons i is ih =>
      have hi : i.bytes.length ≤ (i.fill d.unit).length := by
        cases i <;> simp [DataItem.fill, DataItem.bytes]
      rw [List.flatMap_cons, List.flatMap_cons, List.length_append, List.length_append]
      omega
  have htext := hlength (DataItem.list t)
  rw [DataItem.flatMap_bytes_list] at htext
  rw [stored?_bytes] at h
  have hall : ((DataItem.list t ++ [DataItem.value b]).flatMap (DataItem.fill d.unit)).length =
      (t ++ [b]).length := congrArg List.length (Option.some.inj h)
  have hunit : d.unit = 1 := by
    have hpos : 0 < d.unit := by cases d <;> decide
    simp only [List.flatMap_append, List.length_append, List.flatMap_singleton, DataItem.fill,
      List.length_cons, List.length_replicate, List.length_nil] at hall
    omega
  cases d with
  | db => rfl
  | dw => cases hunit
  | dd => cases hunit
  | dq => cases hunit

end Datum

end Assembly
