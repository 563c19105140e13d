import Mathlib.Data.List.Basic
import Mathlib.Data.Nat.Basic
import Mathlib.Logic.Function.Basic
import Mathlib.Order.Basic

/-! # What each of many parties has put into one sequence

Parties reserve the places of a sequence one after the other, and each puts a value into the place it has
reserved before it reserves another. Values get into the sequence in any order, and still those of one
party stand in it in the order in which that party has put them there.
-/

namespace Shares

open Function

variable {ι α β : Type*} [DecidableEq ι]

/-! ## The part of a list that belongs to a party -/

/-- The entries of `xs` whose author, at the same place of `authors`, is `t`. -/
def share (authors : List ι) (xs : List α) (t : ι) : List α :=
  ((authors.zip xs).filter (·.1 = t)).map Prod.snd

section Share

variable {authors : List ι} {xs ys : List α} {a t : ι} {x : α}

theorem share_snoc (hlen : authors.length = xs.length) :
    share (authors ++ [a]) (xs ++ [x]) t = share authors xs t ++ if a = t then [x] else [] := by
  unfold share
  rw [List.zip_append hlen, List.filter_append, List.map_append]
  by_cases hat : a = t <;> simp [hat]

omit [DecidableEq ι] in
/-- Authors beyond the end of the list do not count. -/
theorem zip_append_authors (hlen : authors.length = xs.length) (more : List ι) :
    (authors ++ more).zip xs = authors.zip xs := by
  have happend : (authors ++ more).zip (xs ++ []) = authors.zip xs ++ more.zip [] :=
    List.zip_append hlen
  rwa [List.append_nil, List.zip_nil_right, List.append_nil] at happend

theorem share_append_authors (hlen : xs.length ≤ authors.length) (ys : List α) :
    share authors (xs ++ ys) t = share authors xs t ++ share (authors.drop xs.length) ys t := by
  obtain ⟨heads, tails, rfl, hheads⟩ : ∃ heads tails, authors = heads ++ tails ∧
      heads.length = xs.length :=
    ⟨authors.take xs.length, authors.drop xs.length, (List.take_append_drop _ _).symm,
      List.length_take_of_le hlen⟩
  unfold share
  rw [List.zip_append hheads, zip_append_authors hheads, ← hheads, List.drop_left, List.filter_append,
    List.map_append]

theorem share_isPrefix (hlen : xs.length ≤ authors.length) (h : xs <+: ys) :
    share authors xs t <+: share authors ys t := by
  obtain ⟨zs, rfl⟩ := h
  rw [share_append_authors hlen]
  exact List.prefix_append _ _

theorem share_map (f : α → β) : share authors (xs.map f) t = (share authors xs t).map f := by
  unfold share
  rw [List.zip_map_right, List.filter_map, List.map_map, List.map_map]
  rfl

/-- What a lone author has written is the whole list. -/
theorem share_of_alone (hlen : authors.length = xs.length) (halone : ∀ a ∈ authors, a = t) :
    share authors xs t = xs := by
  have hall : (authors.zip xs).filter (·.1 = t) = authors.zip xs :=
    List.filter_eq_self.mpr fun x hx => decide_eq_true (halone x.1 (List.of_mem_zip hx).1)
  rw [share, hall, List.map_snd_zip hlen.ge]

/-! ## What passes from one party to another -/

/-- The entries of `xs` that `t` has written and `u` has read. -/
def exchange (writers readers : List ι) (xs : List α) (t u : ι) : List α :=
  ((writers.zip (readers.zip xs)).filter fun x => x.1 = t ∧ x.2.1 = u).map fun x => x.2.2

variable {writers readers : List ι} {u : ι}

theorem exchange_sublist_writer (hlen : xs.length ≤ readers.length) :
    (exchange writers readers xs t u).Sublist (share writers xs t) := by
  have hfilter : (writers.zip (readers.zip xs)).filter (fun x => x.1 = t ∧ x.2.1 = u) =
      ((writers.zip (readers.zip xs)).filter (·.1 = t)).filter (·.2.1 = u) := by
    rw [List.filter_filter]
    refine List.filter_congr fun x _ => ?_
    rw [Bool.and_comm, Bool.decide_and]
  have hshare : share writers xs t =
      ((writers.zip (readers.zip xs)).filter (·.1 = t)).map fun x => x.2.2 := by
    have hxs : xs = (readers.zip xs).map Prod.snd := (List.map_snd_zip hlen).symm
    conv_lhs => rw [hxs, share_map]
    rw [share, List.map_map]
    rfl
  rw [exchange, hfilter, hshare]
  exact List.filter_sublist.map _

theorem exchange_sublist_reader (hlen : xs.length ≤ writers.length) :
    (exchange writers readers xs t u).Sublist (share readers xs u) := by
  have hfilter : (writers.zip (readers.zip xs)).filter (fun x => x.1 = t ∧ x.2.1 = u) =
      ((writers.zip (readers.zip xs)).filter (·.2.1 = u)).filter (·.1 = t) := by
    rw [List.filter_filter]
    refine List.filter_congr fun x _ => ?_
    rw [Bool.decide_and]
  have hshare : share readers xs u =
      ((writers.zip (readers.zip xs)).filter (·.2.1 = u)).map fun x => x.2.2 := by
    have hzip : (writers.zip (readers.zip xs)).map Prod.snd = readers.zip xs := by
      refine List.map_snd_zip ?_
      rw [List.length_zip]
      exact (min_le_right _ _).trans hlen
    conv_lhs => rw [share, ← hzip, List.filter_map, List.map_map]
    rfl
  rw [exchange, hfilter, hshare]
  exact List.filter_sublist.map _

end Share

/-! ## Reserving a place and putting a value into it -/

/-- A sequence whose places are reserved by parties: the party of each reserved place, the values put
into the places, the place each party owes a value to, and what each party has put in, oldest first. -/
structure Desk (ι α : Type*) where
  authors : List ι
  value : ℕ → Option α
  due : ι → Option ℕ
  sent : ι → List α

/-- Party `t` reserves the next place. -/
def Desk.reserve (d : Desk ι α) (t : ι) : Desk ι α :=
  { d with authors := d.authors ++ [t], due := update d.due t (some d.authors.length) }

/-- Party `t` puts `x` into place `q`. -/
def Desk.put (d : Desk ι α) (t : ι) (q : ℕ) (x : α) : Desk ι α :=
  { d with
    value := update d.value q (some x)
    due := update d.due t none
    sent := update d.sent t (d.sent t ++ [x]) }

/-- The value in place `q` if that place is one of party `t`. -/
def Desk.entry (d : Desk ι α) (t : ι) (q : ℕ) : Option α :=
  if d.authors[q]? = some t then d.value q else none

/-- The values of party `t` in the first `n` places. -/
def Desk.firsts (d : Desk ι α) (t : ι) (n : ℕ) : List α := (List.range n).filterMap (d.entry t)

/-- A place that is owed a value is the last one of its party, all others have theirs, and what a party
has put in is what stands in its places. -/
structure Desk.Fair (d : Desk ι α) : Prop where
  due : ∀ t q, d.due t = some q → d.authors[q]? = some t ∧ d.value q = none ∧
    ∀ p, q < p → d.authors[p]? ≠ some t
  settled : ∀ t q, d.authors[q]? = some t → d.value q = none → d.due t = some q
  unreserved : ∀ q, d.authors.length ≤ q → d.value q = none
  sent : ∀ t, d.sent t = d.firsts t d.authors.length

section Fair

variable {d : Desk ι α} {t u : ι} {p q n : ℕ} {x : α}

theorem Desk.reserve_due_of_ne (hu : u ≠ t) : (d.reserve t).due u = d.due u := update_of_ne hu _ _

theorem Desk.put_due_of_ne (hu : u ≠ t) : (d.put t q x).due u = d.due u := update_of_ne hu _ _

theorem Desk.put_value_of_ne (hp : p ≠ q) : (d.put t q x).value p = d.value p := update_of_ne hp _ _

theorem Desk.firsts_succ : d.firsts t (n + 1) = d.firsts t n ++ (d.entry t n).toList := by
  unfold Desk.firsts
  rw [List.range_succ, List.filterMap_append]
  cases h : d.entry t n <;> simp [h]

theorem Desk.firsts_congr {d' : Desk ι α} (h : ∀ q < n, d'.entry t q = d.entry t q) :
    d'.firsts t n = d.firsts t n := by
  refine List.filterMap_congr fun q hq => h q (List.mem_range.mp hq)

/-- From a place on in which `t` has nothing, nothing comes in. -/
theorem Desk.firsts_of_empty (hqn : q ≤ n) (h : ∀ p, q ≤ p → d.entry t p = none) :
    d.firsts t n = d.firsts t q := by
  induction n, hqn using Nat.le_induction with
  | base => rfl
  | succ n hqn ih => rw [firsts_succ, h n hqn, ih, Option.toList_none, List.append_nil]

theorem Desk.firsts_isPrefix {m : ℕ} (hmn : m ≤ n) : d.firsts t m <+: d.firsts t n := by
  obtain ⟨k, rfl⟩ := Nat.exists_eq_add_of_le hmn
  unfold Desk.firsts
  rw [List.range_add, List.filterMap_append]
  exact List.prefix_append _ _

theorem Desk.Fair.lt (h : d.Fair) (hq : d.due t = some q) : q < d.authors.length :=
  (List.getElem?_eq_some_iff.mp (h.due t q hq).1).1

theorem Desk.Fair.reserve (h : d.Fair) (ht : d.due t = none) : (d.reserve t).Fair := by
  have hauthors : ∀ u q, (d.authors ++ [t])[q]? = some u ↔
      d.authors[q]? = some u ∨ q = d.authors.length ∧ t = u := by
    intro u q
    rcases lt_trichotomy q d.authors.length with hlt | rfl | hgt
    · rw [List.getElem?_append_left hlt]
      exact ⟨.inl, fun hq => hq.resolve_right fun heq => by omega⟩
    · simp
    · have hnone : (d.authors ++ [t])[q]? = none := List.getElem?_eq_none (by simp; omega)
      have hnone' : d.authors[q]? = none := List.getElem?_eq_none hgt.le
      simp only [hnone, hnone', reduceCtorEq, false_iff, false_or, not_and]
      omega
  refine ⟨fun u q hq => ?_, fun u q hq hvalue => ?_, fun q hq => ?_, fun u => ?_⟩
  · by_cases hu : u = t
    · subst hu
      obtain rfl : d.authors.length = q := by simpa [Desk.reserve] using hq
      refine ⟨(hauthors _ _).mpr (.inr ⟨rfl, rfl⟩), h.unreserved _ le_rfl, fun p hp hauthor => ?_⟩
      rcases (hauthors _ _).mp hauthor with hlt | ⟨rfl, -⟩
      · have := (List.getElem?_eq_some_iff.mp hlt).1
        omega
      · exact lt_irrefl _ hp
    · rw [Desk.reserve_due_of_ne hu] at hq
      obtain ⟨hauthor, hvalue, hlast⟩ := h.due u q hq
      refine ⟨(hauthors _ _).mpr (.inl hauthor), hvalue, fun p hp hauthor' => ?_⟩
      rcases (hauthors _ _).mp hauthor' with hother | ⟨-, rfl⟩
      · exact hlast p hp hother
      · exact hu rfl
  · rcases (hauthors _ _).mp hq with hauthor | ⟨rfl, rfl⟩
    · have hdue := h.settled u q hauthor hvalue
      have hu : u ≠ t := by
        rintro rfl
        rw [ht] at hdue
        cases hdue
      rw [Desk.reserve_due_of_ne hu]
      exact hdue
    · exact update_self _ _ _
  · refine h.unreserved q ?_
    rw [Desk.reserve, List.length_append] at hq
    omega
  · have hlast : (d.reserve t).entry u d.authors.length = none := by
      unfold Desk.entry
      split
      · exact h.unreserved _ le_rfl
      · rfl
    rw [Desk.reserve, List.length_append, List.length_singleton]
    show d.sent u = (d.reserve t).firsts u (d.authors.length + 1)
    rw [firsts_succ, hlast, Option.toList_none, List.append_nil, h.sent u]
    refine (firsts_congr fun q hq => ?_).symm
    simp only [Desk.entry, Desk.reserve, List.getElem?_append_left hq]

theorem Desk.Fair.put (h : d.Fair) (hq : d.due t = some q) : (d.put t q x).Fair := by
  obtain ⟨hauthor, hvalue, hlast⟩ := h.due t q hq
  refine ⟨fun u p hp => ?_, fun u p hp hvalue' => ?_, fun p hp => ?_, fun u => ?_⟩
  · have hu : u ≠ t := by
      rintro rfl
      simp [Desk.put] at hp
    rw [Desk.put_due_of_ne hu] at hp
    obtain ⟨hauthor', hvalue', hlast'⟩ := h.due u p hp
    have hpq : p ≠ q := by
      rintro rfl
      exact hu (Option.some.inj (hauthor'.symm.trans hauthor))
    exact ⟨hauthor', (Desk.put_value_of_ne hpq).trans hvalue', hlast'⟩
  · have hpq : p ≠ q := by
      rintro rfl
      simp [Desk.put] at hvalue'
    rw [Desk.put_value_of_ne hpq] at hvalue'
    have hdue := h.settled u p hp hvalue'
    have hu : u ≠ t := by
      rintro rfl
      exact hpq (Option.some.inj (hdue.symm.trans hq))
    exact (Desk.put_due_of_ne hu).trans hdue
  · have hpq : p ≠ q := by
      rintro rfl
      exact absurd (h.lt hq) (by simpa [Desk.put] using hp)
    exact (Desk.put_value_of_ne hpq).trans (h.unreserved p hp)
  · by_cases hu : u = t
    · subst hu
      -- the place is the last of `u`, so that its value comes last
      have hold : ∀ p, q ≤ p → d.entry u p = none := by
        intro p hp
        rcases hp.eq_or_lt with rfl | hlt
        · rw [Desk.entry, if_pos hauthor, hvalue]
        · rw [Desk.entry, if_neg (hlast p hlt)]
      have hnew : ∀ p, q + 1 ≤ p → (d.put u q x).entry u p = none := by
        intro p hp
        rw [Desk.entry, if_neg]
        exact hlast p hp
      have hself : (d.put u q x).entry u q = some x := by
        rw [Desk.entry, if_pos]
        · exact update_self _ _ _
        · exact hauthor
      have hbefore : (d.put u q x).firsts u q = d.firsts u q := by
        refine firsts_congr fun p hp => ?_
        rw [Desk.entry, Desk.put_value_of_ne hp.ne]
        rfl
      show update d.sent u (d.sent u ++ [x]) u = (d.put u q x).firsts u d.authors.length
      rw [update_self, firsts_of_empty (h.lt hq) hnew, firsts_succ, hself, hbefore, h.sent u,
        firsts_of_empty (h.lt hq).le hold, Option.toList_some]
    · show update d.sent t (d.sent t ++ [x]) u = (d.put t q x).firsts u d.authors.length
      rw [update_of_ne hu, h.sent u]
      refine (firsts_congr fun p _ => ?_).symm
      by_cases hpq : p = q
      · subst hpq
        have hne : d.authors[p]? ≠ some u := by
          rw [hauthor]
          exact fun heq => hu (Option.some.inj heq).symm
        rw [Desk.entry, Desk.entry, if_neg hne]
        exact if_neg hne
      · rw [Desk.entry, Desk.put_value_of_ne hpq]
        rfl

/-- Where the first places have values, those of a party are the first it has put in. -/
theorem Desk.Fair.share_isPrefix (h : d.Fair) {xs : List α} (hlen : xs.length ≤ d.authors.length)
    (hvalue : ∀ q, q < xs.length → d.value q = xs[q]?) : share d.authors xs t <+: d.sent t := by
  have hshare : ∀ n ≤ xs.length, share d.authors (xs.take n) t = d.firsts t n := by
    intro n
    induction n with
    | zero => intro _; simp [share, Desk.firsts]
    | succ n ih =>
        intro hn
        have hauthor : n < d.authors.length := by omega
        have hlast : xs.take (n + 1) = xs.take n ++ [xs[n]] := by
          rw [List.take_add_one, List.getElem?_eq_getElem hn, Option.toList_some]
        have hshort : (xs.take n).length = n := List.length_take_of_le (by omega)
        rw [hlast, share_append_authors (by omega), ih (by omega), Desk.firsts_succ, hshort]
        congr 1
        have hnext : share (d.authors.drop n) [xs[n]] t = if d.authors[n] = t then [xs[n]] else [] := by
          rw [List.drop_eq_getElem_cons hauthor, share, List.zip_cons_cons, List.zip_nil_right]
          by_cases heq : d.authors[n] = t <;> simp [heq]
        rw [hnext, Desk.entry, List.getElem?_eq_getElem hauthor, hvalue n hn,
          List.getElem?_eq_getElem hn]
        by_cases heq : d.authors[n] = t <;> simp [heq]
  have hall := hshare xs.length le_rfl
  rw [List.take_length] at hall
  rw [hall, h.sent t]
  exact Desk.firsts_isPrefix hlen

end Fair

end Shares
