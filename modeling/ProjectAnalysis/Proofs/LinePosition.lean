import ProjectAnalysis.TextLines

/-! Lines and columns against the bytes of a text. The starts of lines are read off the line feeds,
byte by byte. A search that halves these starts ends at the line of an offset, with nothing taken
from less than itself; and since a line and a column tell their offset again, they are as different
and in the same order as the offsets are. -/
namespace ProjectAnalysis

/-- The UTF-8 bytes of a text. -/
def bytesOf (text : String) : List UInt8 :=
  text.toUTF8.data.toList

def lineFeed : UInt8 := 10

/-- The offsets behind the line feeds among some bytes, the first of which is at `offset`. -/
def startsBehind (offset : Nat) : List UInt8 → List Nat
  | [] => []
  | b :: bs =>
    if b = lineFeed then (offset + 1) :: startsBehind (offset + 1) bs
    else startsBehind (offset + 1) bs

/-- A line begins at the offset: nothing is before it, or a line feed is. -/
def BeginsLine (bytes : List UInt8) (offset : Nat) : Prop :=
  offset = 0 ∨ ∃ i, bytes[i]? = some lineFeed ∧ offset = i + 1

section
variable {bs : List UInt8}

theorem startsBehind_append (offset : Nat) (as bs : List UInt8) :
    startsBehind offset (as ++ bs) =
      startsBehind offset as ++ startsBehind (offset + as.length) bs := by
  induction as generalizing offset with
  | nil => rfl
  | cons a as ih =>
    have hlength : offset + (a :: as).length = offset + 1 + as.length := by
      rw [List.length_cons]
      omega
    rw [hlength, List.cons_append, startsBehind, startsBehind, ih]
    split <;> rfl

theorem mem_startsBehind {offset start : Nat} :
    start ∈ startsBehind offset bs ↔
      ∃ i, bs[i]? = some lineFeed ∧ start = offset + i + 1 := by
  induction bs generalizing offset with
  | nil => simp [startsBehind]
  | cons b bs ih =>
    have hrest : start ∈ startsBehind (offset + 1) bs ↔
        ∃ i, (b :: bs)[i + 1]? = some lineFeed ∧ start = offset + (i + 1) + 1 := by
      simp only [ih, List.getElem?_cons_succ, Nat.add_assoc, Nat.add_comm 1]
    have hsplit : (∃ i, (b :: bs)[i]? = some lineFeed ∧ start = offset + i + 1) ↔
        (b = lineFeed ∧ start = offset + 1) ∨ start ∈ startsBehind (offset + 1) bs := by
      rw [hrest]
      constructor
      · rintro ⟨i, hi, hstart⟩
        cases i with
        | zero => exact Or.inl ⟨Option.some.inj hi, hstart⟩
        | succ i => exact Or.inr ⟨i, hi, hstart⟩
      · rintro (⟨rfl, hstart⟩ | ⟨i, hi, hstart⟩)
        · exact ⟨0, rfl, hstart⟩
        · exact ⟨i + 1, hi, hstart⟩
    rw [hsplit, startsBehind]
    by_cases hb : b = lineFeed <;> simp [hb]

theorem length_startsBehind (offset : Nat) (bs : List UInt8) :
    (startsBehind offset bs).length = bs.count lineFeed := by
  induction bs generalizing offset with
  | nil => rfl
  | cons b bs ih =>
    rw [startsBehind, List.count_cons]
    by_cases hb : b = lineFeed <;> simp [hb, ih]

theorem startsBehind_ascending (offset : Nat) (bs : List UInt8) :
    (startsBehind offset bs).Pairwise (· < ·) := by
  induction bs generalizing offset with
  | nil => exact List.Pairwise.nil
  | cons b bs ih =>
    rw [startsBehind]
    split
    · refine List.Pairwise.cons (fun start hstart => ?_) (ih (offset + 1))
      obtain ⟨i, -, rfl⟩ := mem_startsBehind.1 hstart
      omega
    · exact ih (offset + 1)

/-- Up to an offset those lines have begun that begin within the bytes before it. -/
theorem takeWhile_startsBehind (bs : List UInt8) (offset : Nat) :
    (startsBehind 0 bs).takeWhile (· ≤ offset) = startsBehind 0 (bs.take offset) := by
  have hpassed : ∀ start ∈ startsBehind 0 (bs.take offset), decide (start ≤ offset) = true := by
    intro start hstart
    obtain ⟨i, hi, rfl⟩ := mem_startsBehind.1 hstart
    have hlt := (List.getElem?_eq_some_iff.1 hi).1
    rw [List.length_take] at hlt
    exact decide_eq_true (by omega)
  have hlater : ∀ start ∈ startsBehind (bs.take offset).length (bs.drop offset),
      ¬ start ≤ offset := by
    intro start hstart
    obtain ⟨i, hi, rfl⟩ := mem_startsBehind.1 hstart
    have hlt := (List.getElem?_eq_some_iff.1 hi).1
    rw [List.length_drop] at hlt
    rw [List.length_take]
    omega
  have hnone : (startsBehind (bs.take offset).length (bs.drop offset)).takeWhile (· ≤ offset) =
      [] := by
    cases hrest : startsBehind (bs.take offset).length (bs.drop offset) with
    | nil => rfl
    | cons start rest =>
      rw [hrest] at hlater
      exact List.takeWhile_cons_of_neg (by simpa using hlater start List.mem_cons_self)
  conv => lhs; rw [← List.take_append_drop offset bs]
  rw [startsBehind_append, Nat.zero_add, List.takeWhile_append_of_pos hpassed, hnone,
    List.append_nil]

/-- The last of the lines that begin within some bytes: no line feed is behind its start. -/
theorem getLastD_startsBehind (bs : List UInt8) :
    BeginsLine bs ((startsBehind 0 bs).getLastD 0) ∧
      ∀ i, (startsBehind 0 bs).getLastD 0 ≤ i → bs[i]? ≠ some lineFeed := by
  have hmem (i : Nat) (hi : bs[i]? = some lineFeed) : i + 1 ∈ startsBehind 0 bs :=
    mem_startsBehind.2 ⟨i, hi, by omega⟩
  rcases (startsBehind 0 bs).eq_nil_or_concat with hnil | ⟨front, last, hlast⟩
  · rw [hnil] at hmem ⊢
    exact ⟨Or.inl rfl, fun i _ hi => List.not_mem_nil (hmem i hi)⟩
  · rw [List.concat_eq_append] at hlast
    have hget : (startsBehind 0 bs).getLastD 0 = last := by
      rw [hlast, List.getLastD_concat]
    have hascending := startsBehind_ascending 0 bs
    rw [hlast, List.pairwise_append] at hascending
    rw [hget]
    constructor
    · have hin : last ∈ startsBehind 0 bs := by simp [hlast]
      obtain ⟨i, hi, rfl⟩ := mem_startsBehind.1 hin
      exact Or.inr ⟨i, hi, by omega⟩
    · -- Each line feed is before a start, and none of these is behind the last one.
      intro i hle hi
      have hstart := hmem i hi
      rw [hlast, List.mem_append, List.mem_singleton] at hstart
      rcases hstart with hfront | hlast
      · have hlt := hascending.2.2 _ hfront last (List.mem_singleton_self last)
        omega
      · omega

end

/-- Of all characters only the line feed has a byte that is one. -/
theorem lineFeed_mem_utf8EncodeChar {c : Char} :
    lineFeed ∈ String.utf8EncodeChar c ↔ c = '\n' := by
  constructor
  · intro h
    have hbyte {n : Nat} (hn : n < 256) (h : lineFeed = UInt8.ofNat n) : n = 10 := by
      have hvalue := congrArg UInt8.toNat h
      rw [UInt8.toNat_ofNat_of_lt' hn] at hvalue
      exact hvalue.symm
    have hwide {a b : Nat} (ha : 128 ≤ b) (hb : a + b < 256) : lineFeed ≠ UInt8.ofNat (a + b) := by
      intro h
      have := hbyte hb h
      omega
    unfold String.utf8EncodeChar at h
    dsimp only at h
    split at h
    · have hcode := hbyte (by omega) (List.mem_singleton.1 h)
      exact Char.ext (UInt32.toNat_inj.1 hcode)
    · -- Every byte of a wider character is beyond ASCII.
      exfalso
      split at h
      · simp only [List.mem_cons, List.not_mem_nil, or_false] at h
        rcases h with h | h <;> exact hwide (by omega) (by omega) h
      · split at h <;> simp only [List.mem_cons, List.not_mem_nil, or_false] at h
        · rcases h with h | h | h <;> exact hwide (by omega) (by omega) h
        · rcases h with h | h | h | h <;> exact hwide (by omega) (by omega) h
  · rintro rfl
    decide

theorem lineStartsFrom_eq (offset : Nat) (cs : List Char) :
    lineStartsFrom offset cs = startsBehind offset (cs.flatMap String.utf8EncodeChar) := by
  induction cs generalizing offset with
  | nil => rfl
  | cons c cs ih =>
    rw [List.flatMap_cons, startsBehind_append, String.length_utf8EncodeChar, lineStartsFrom, ih]
    split
    · next hc =>
      subst hc
      rfl
    · next hc =>
      have hnone : startsBehind offset (String.utf8EncodeChar c) = [] := by
        apply List.eq_nil_iff_forall_not_mem.2
        intro start hstart
        obtain ⟨i, hi, -⟩ := mem_startsBehind.1 hstart
        exact hc (lineFeed_mem_utf8EncodeChar.1 (List.mem_of_getElem? hi))
      rw [hnone, List.nil_append]

theorem bytesOf_eq (text : String) : bytesOf text = text.toList.flatMap String.utf8EncodeChar := by
  conv => lhs; rw [← String.ofList_toList (s := text)]
  exact List.toList_data_toByteArray

/-- What a search in an ascending row ends with: the place of the number, or else the place that it
would take. -/
inductive SearchResult
  | found (i : Nat)
  | missing (i : Nat)

/-- Searches a number at the places from `lo` to `hi`, which are halved in each step. -/
def bisect (row : List Nat) (n lo hi : Nat) : SearchResult :=
  if lo < hi then
    let mid := (lo + hi) / 2
    let value := row.getD mid 0
    if value = n then .found mid
    else if value < n then bisect row n (mid + 1) hi
    else bisect row n lo mid
  else .missing lo
termination_by hi - lo

namespace SearchResult

/-- The result is right for the row and the number. -/
def Fits (row : List Nat) (n : Nat) : SearchResult → Prop
  | found i => row[i]? = some n
  | missing i => i ≤ row.length ∧ ∀ j s, row[j]? = some s → (j < i → s < n) ∧ (i ≤ j → n < s)

/-- The place of the last number that is not behind the one that was searched, if there is any. -/
def last? : SearchResult → Option Nat
  | found i => some i
  | missing 0 => none
  | missing (i + 1) => some i

end SearchResult

section
variable {row : List Nat} {n : Nat}

theorem lt_of_ascending (h : row.Pairwise (· < ·)) {i j s t : Nat} (hs : row[i]? = some s)
    (ht : row[j]? = some t) (hij : i < j) : s < t := by
  obtain ⟨hi, rfl⟩ := List.getElem?_eq_some_iff.1 hs
  obtain ⟨hj, rfl⟩ := List.getElem?_eq_some_iff.1 ht
  exact List.pairwise_iff_getElem.1 h i j hi hj hij

theorem le_of_ascending (h : row.Pairwise (· < ·)) {i j s t : Nat} (hs : row[i]? = some s)
    (ht : row[j]? = some t) (hij : i ≤ j) : s ≤ t := by
  rcases Nat.eq_or_lt_of_le hij with rfl | hlt
  · exact Nat.le_of_eq (Option.some.inj (hs.symm.trans ht))
  · exact Nat.le_of_lt (lt_of_ascending h hs ht hlt)

theorem bisect_fits (hrow : row.Pairwise (· < ·)) (lo hi : Nat) (hlo : lo ≤ hi)
    (hhi : hi ≤ row.length) (hbelow : ∀ j s, row[j]? = some s → j < lo → s < n)
    (habove : ∀ j s, row[j]? = some s → hi ≤ j → n < s) : (bisect row n lo hi).Fits row n := by
  have hvalue {mid : Nat} (hmid : mid < row.length) : row[mid]? = some (row.getD mid 0) := by
    rw [List.getD_eq_getElem?_getD, List.getElem?_eq_getElem hmid, Option.getD_some]
  -- What is before `lo` is too small and what is from `hi` on too big, in every step.
  fun_induction bisect row n lo hi with
  | case1 lo hi hlt mid value hfound =>
    exact hfound ▸ hvalue (by omega)
  | case2 lo hi hlt mid value _ hsmall ih =>
    refine ih (by omega) hhi (fun j s hs hj => ?_) habove
    have hle := le_of_ascending hrow hs (hvalue (by omega : mid < row.length)) (by omega)
    omega
  | case3 lo hi hlt mid value hne hbig ih =>
    refine ih (by omega) (by omega) hbelow fun j s hs hj => ?_
    have hle := le_of_ascending hrow (hvalue (by omega : mid < row.length)) hs hj
    omega
  | case4 lo hi hge =>
    exact ⟨by omega, fun j s hs => ⟨hbelow j s hs, fun hj => habove j s hs (by omega)⟩⟩

/-- Any search that ends rightly tells the place of the last number that is not behind the one that
was searched. -/
theorem SearchResult.Fits.last?_eq {result : SearchResult} (h : result.Fits row n)
    (hrow : row.Pairwise (· < ·)) {line start : Nat} (hstart : row[line]? = some start)
    (hle : start ≤ n) (hnext : ∀ s, row[line + 1]? = some s → n < s) :
    result.last? = some line := by
  cases result with
  | found i =>
    have hi : row[i]? = some n := h
    have hlength := (List.getElem?_eq_some_iff.1 hi).1
    rcases Nat.lt_trichotomy i line with hlt | rfl | hlt
    · have hbehind := lt_of_ascending hrow hi hstart hlt
      omega
    · rfl
    · -- A number between these two would be behind `n`, and `n` is not before it.
      have hafter := List.getElem?_eq_getElem (Nat.lt_of_le_of_lt hlt hlength)
      have hbehind := hnext _ hafter
      have hbefore := le_of_ascending hrow hafter hi hlt
      omega
  | missing i =>
    obtain ⟨hlength, hsides⟩ := h
    have hlower : line < i := by
      apply Nat.lt_of_not_le
      intro hge
      have hbehind := (hsides line start hstart).2 hge
      omega
    have hupper : i ≤ line + 1 := by
      apply Nat.le_of_not_lt
      intro hlt
      have hafter := List.getElem?_eq_getElem (Nat.lt_of_lt_of_le hlt hlength)
      have hbehind := hnext _ hafter
      have hbefore := (hsides _ _ hafter).1 hlt
      omega
    obtain rfl : i = line + 1 := by omega
    rfl

/-- In an ascending row those that are not behind `n` come first. -/
theorem le_iff_of_takeWhile (hrow : row.Pairwise (· < ·)) {j s : Nat} (hs : row[j]? = some s) :
    s ≤ n ↔ j < (row.takeWhile (· ≤ n)).length := by
  induction row generalizing j with
  | nil => cases hs
  | cons first row ih =>
    obtain ⟨hfirst, hrow⟩ := List.pairwise_cons.1 hrow
    by_cases hle : first ≤ n
    · rw [List.takeWhile_cons_of_pos (by simpa using hle), List.length_cons]
      cases j with
      | zero =>
        obtain rfl := Option.some.inj hs
        exact iff_of_true hle (Nat.succ_pos _)
      | succ j => exact (ih hrow hs).trans Nat.succ_lt_succ_iff.symm
    · rw [List.takeWhile_cons_of_neg (by simpa using hle)]
      refine iff_of_false ?_ (Nat.not_lt_zero j)
      have hbehind := le_of_ascending (List.pairwise_cons.2 ⟨hfirst, hrow⟩)
        (rfl : (first :: row)[0]? = some first) hs (Nat.zero_le j)
      omega

/-- Behind a first number and the front of a row stands the last number of these. -/
theorem getElem?_cons_length_append (first : Nat) (front rest : List Nat) :
    (first :: (front ++ rest))[front.length]? = some (front.getLastD first) := by
  induction front generalizing first with
  | nil => rfl
  | cons s front ih =>
    rw [List.cons_append, List.length_cons, List.getElem?_cons_succ, ih, List.getLastD_cons]

end

/-- The order of places in a text: line by line, and within a line by the column. -/
def LineColumn.Before (p q : LineColumn) : Prop :=
  p.line < q.line ∨ p.line = q.line ∧ p.column < q.column

theorem LineColumn.Before.asymm {p q : LineColumn} (h : p.Before q) : ¬ q.Before p := by
  unfold LineColumn.Before at *
  omega

namespace LineIndex

variable {x : LineIndex}

/-- Line and column by a search among all starts; nothing, if the search ends before the first line,
or if the line starts behind the offset, which would be less than what is taken from it. -/
def locate? (x : LineIndex) (offset : Nat) : Option LineColumn := do
  let line ← (bisect x.starts offset 0 x.starts.length).last?
  let start ← x.starts[line]?
  if start ≤ offset then some ⟨line, offset - start⟩ else none

/-- The line of an offset is the last one that begins at the offset or before. -/
theorem getElem?_line (x : LineIndex) (offset : Nat) :
    x.starts[(x.locate offset).line]? =
      some ((x.laterStarts.takeWhile (· ≤ offset)).getLastD 0) := by
  have hrow : x.starts = 0 :: (x.laterStarts.takeWhile (· ≤ offset) ++
      x.laterStarts.dropWhile (· ≤ offset)) := by
    rw [List.takeWhile_append_dropWhile, starts]
  rw [hrow]
  exact getElem?_cons_length_append 0 _ _

theorem le_iff_le_line (hstarts : x.starts.Pairwise (· < ·)) {offset j s : Nat}
    (hs : x.starts[j]? = some s) : s ≤ offset ↔ j ≤ (x.locate offset).line := by
  rw [le_iff_of_takeWhile hstarts hs, starts, List.takeWhile_cons_of_pos (by simp),
    List.length_cons]
  exact Nat.lt_succ_iff

/-- The column is the way from the start of the line, which is not behind the offset. -/
theorem exists_start (hstarts : x.starts.Pairwise (· < ·)) (offset : Nat) :
    ∃ start, x.starts[(x.locate offset).line]? = some start ∧
      start = (x.laterStarts.takeWhile (· ≤ offset)).getLastD 0 ∧
      start + (x.locate offset).column = offset := by
  have hline := x.getElem?_line offset
  refine ⟨_, hline, rfl, ?_⟩
  have hle := (le_iff_le_line hstarts hline).2 (Nat.le_refl _)
  exact Nat.add_sub_cancel' hle

/-- The search gives the line and nothing is taken from less: the first line begins at 0, so some
line has begun at every offset. -/
theorem locate?_eq (hstarts : x.starts.Pairwise (· < ·)) (offset : Nat) :
    x.locate? offset = some (x.locate offset) := by
  obtain ⟨start, hstart, -, hcolumn⟩ := exists_start hstarts offset
  have hfits : (bisect x.starts offset 0 x.starts.length).Fits x.starts offset := by
    refine bisect_fits hstarts 0 _ (Nat.zero_le _) (Nat.le_refl _) (fun j s _ hj => ?_)
      fun j s hs hj => ?_
    · exact absurd hj (Nat.not_lt_zero j)
    · exact absurd (List.getElem?_eq_some_iff.1 hs).1 (Nat.not_lt.2 hj)
  have hnext : ∀ s, x.starts[(x.locate offset).line + 1]? = some s → offset < s := by
    intro s hs
    apply Nat.lt_of_not_le
    rw [le_iff_le_line hstarts hs]
    exact Nat.not_succ_le_self _
  have hlast := hfits.last?_eq hstarts hstart (by omega) hnext
  have hcolumn' : offset - start = (x.locate offset).column := by omega
  unfold locate?
  rw [hlast, Option.bind_eq_bind, Option.bind_some, hstart, Option.bind_some, if_pos (by omega),
    hcolumn']

theorem laterStarts_ofText (text : String) :
    (ofText text).laterStarts = startsBehind 0 (bytesOf text) := by
  rw [ofText, lineStartsFrom_eq, bytesOf_eq]

theorem starts_ascending (text : String) : (ofText text).starts.Pairwise (· < ·) := by
  rw [starts, laterStarts_ofText]
  refine List.Pairwise.cons (fun start hstart => ?_) (startsBehind_ascending 0 _)
  obtain ⟨i, -, rfl⟩ := mem_startsBehind.1 hstart
  omega

theorem line_ofText (text : String) (offset : Nat) :
    ((ofText text).locate offset).line = ((bytesOf text).take offset).count lineFeed := by
  rw [locate, laterStarts_ofText, takeWhile_startsBehind, length_startsBehind]

/-- The column counts from the byte behind the last line feed before the offset. -/
theorem column_ofText (text : String) (offset : Nat) :
    ∃ start, (ofText text).starts[((ofText text).locate offset).line]? = some start ∧
      BeginsLine (bytesOf text) start ∧ start + ((ofText text).locate offset).column = offset ∧
      ∀ i, start ≤ i → i < offset → (bytesOf text)[i]? ≠ some lineFeed := by
  obtain ⟨start, hline, hstart, hcolumn⟩ := exists_start (starts_ascending text) offset
  rw [laterStarts_ofText, takeWhile_startsBehind] at hstart
  obtain ⟨hbegins, hlast⟩ := getLastD_startsBehind ((bytesOf text).take offset)
  rw [← hstart] at hbegins hlast
  refine ⟨start, hline, ?_, hcolumn, fun i hi hlt => ?_⟩
  · refine hbegins.imp_right ?_
    rintro ⟨i, hi, rfl⟩
    refine ⟨i, ?_, rfl⟩
    rwa [List.getElem?_take_of_lt (by omega)] at hi
  · have hnone := hlast i hi
    rwa [List.getElem?_take_of_lt hlt] at hnone

theorem before_of_lt (text : String) {a b : Nat} (h : a < b) :
    ((ofText text).locate a).Before ((ofText text).locate b) := by
  obtain ⟨start, hline, -, hcolumn, -⟩ := column_ofText text a
  obtain ⟨start', hline', -, hcolumn', -⟩ := column_ofText text b
  have hle : ((ofText text).locate a).line ≤ ((ofText text).locate b).line := by
    rw [line_ofText, line_ofText]
    exact (List.take_prefix_take_left (Nat.le_of_lt h)).sublist.count_le lineFeed
  rcases Nat.eq_or_lt_of_le hle with hsame | hlt
  · -- On one line both columns count from the same start.
    rw [hsame, hline'] at hline
    obtain rfl := Option.some.inj hline
    exact Or.inr ⟨hsame, by omega⟩
  · exact Or.inl hlt

theorem mem_starts_ofText {text : String} {start : Nat} :
    start ∈ (ofText text).starts ↔ BeginsLine (bytesOf text) start := by
  rw [starts, laterStarts_ofText, List.mem_cons, mem_startsBehind, BeginsLine]
  simp only [Nat.zero_add]

theorem count_ofText (text : String) :
    (ofText text).count = (bytesOf text).count lineFeed + 1 := by
  rw [count, starts, List.length_cons, laterStarts_ofText, length_startsBehind]

theorem locate_ofText_inj (text : String) {a b : Nat} :
    (ofText text).locate a = (ofText text).locate b ↔ a = b := by
  refine ⟨fun hsame => ?_, congrArg _⟩
  rcases Nat.lt_trichotomy a b with hlt | heq | hlt
  · have hbefore := before_of_lt text hlt
    rw [hsame] at hbefore
    exact absurd hbefore hbefore.asymm
  · exact heq
  · have hbefore := before_of_lt text hlt
    rw [hsame] at hbefore
    exact absurd hbefore hbefore.asymm

theorem before_ofText_iff (text : String) {a b : Nat} :
    ((ofText text).locate a).Before ((ofText text).locate b) ↔ a < b := by
  refine ⟨fun hbefore => ?_, before_of_lt text⟩
  rcases Nat.lt_or_ge a b with hlt | hge
  · exact hlt
  · rcases Nat.eq_or_lt_of_le hge with rfl | hlt
    · exact absurd hbefore hbefore.asymm
    · exact absurd (before_of_lt text hlt) hbefore.asymm

/-- Lines and columns that are right for the bytes of a text. -/
structure Exact (x : LineIndex) (bytes : List UInt8) : Prop where
  ascending : x.starts.Pairwise (· < ·)
  begins : ∀ start, start ∈ x.starts ↔ BeginsLine bytes start
  within : ∀ start ∈ x.starts, start ≤ bytes.length
  lines : x.count = bytes.count lineFeed + 1
  /-- The search among all starts comes to the same. -/
  search : ∀ offset, x.locate? offset = some (x.locate offset)
  line : ∀ offset, (x.locate offset).line = (bytes.take offset).count lineFeed
  /-- The column counts from the start of the line, and no line feed is between. -/
  column : ∀ offset, ∃ start, x.starts[(x.locate offset).line]? = some start ∧
    BeginsLine bytes start ∧ start + (x.locate offset).column = offset ∧
    ∀ i, start ≤ i → i < offset → bytes[i]? ≠ some lineFeed
  differ : ∀ a b, x.locate a = x.locate b ↔ a = b
  order : ∀ a b, (x.locate a).Before (x.locate b) ↔ a < b

/-- Lines and columns of every text. A line starts at 0 and behind each line feed, in ascending
order and within the text. The line of an offset, which may be beyond the end, counts the line feeds
before it, and the column counts from the last of these. The places of offsets are as different and
in the same order as the offsets. -/
theorem locate_exact (text : String) : (ofText text).Exact (bytesOf text) := by
  have hascending := starts_ascending text
  have hwithin : ∀ start ∈ (ofText text).starts, start ≤ (bytesOf text).length := by
    intro start hstart
    rcases mem_starts_ofText.1 hstart with rfl | ⟨i, hi, rfl⟩
    · exact Nat.zero_le _
    · exact (List.getElem?_eq_some_iff.1 hi).1
  exact {
    ascending := hascending
    begins := fun start => mem_starts_ofText
    within := hwithin
    lines := count_ofText text
    search := locate?_eq hascending
    line := line_ofText text
    column := column_ofText text
    differ := fun a b => locate_ofText_inj text
    order := fun a b => before_ofText_iff text }

/-- Inside of a line, in an empty line, at the start of the last line, and beyond the end. -/
theorem locate_exact_lines :
    let x := ofText "ab\ncd\n\nx"
    [4, 6, 7, 9].map x.locate? = [some ⟨1, 1⟩, some ⟨2, 0⟩, some ⟨3, 0⟩, some ⟨3, 2⟩] ∧
      x.count = 4 ∧ 6 ∈ x.starts ∧ 6 ≤ (bytesOf "ab\ncd\n\nx").length ∧
      (bytesOf "ab\ncd\n\nx")[8]? ≠ some lineFeed ∧ (x.locate 7).Before (x.locate 9) := by
  intro x
  have hexact : x.Exact (bytesOf "ab\ncd\n\nx") := locate_exact "ab\ncd\n\nx"
  have hplaces : [4, 6, 7, 9].map x.locate = [⟨1, 1⟩, ⟨2, 0⟩, ⟨3, 0⟩, ⟨3, 2⟩] := by decide
  have hsearch : [4, 6, 7, 9].map x.locate? = ([4, 6, 7, 9].map x.locate).map some := by
    rw [List.map_map]
    exact List.map_congr_left fun offset _ => hexact.search offset
  rw [hplaces] at hsearch
  have hcount : x.count = 4 := hexact.lines.trans (by decide)
  have hbegins : 6 ∈ x.starts := (hexact.begins 6).2 (Or.inr ⟨5, by decide, rfl⟩)
  obtain ⟨start, hstart, -, -, hlast⟩ := hexact.column 9
  have hline : x.starts[(x.locate 9).line]? = some 7 := by decide
  obtain rfl := Option.some.inj (hline.symm.trans hstart)
  refine ⟨hsearch, hcount, hbegins, hexact.within 6 hbegins, ?_, ?_⟩
  · exact hlast 8 (by decide) (by decide)
  · exact (hexact.order 7 9).2 (by decide)

end LineIndex

end ProjectAnalysis
