/-
Circular doubly linked lists with a head node, read off their pointers.

A ring is a head node `h` and the elements `l` after it. A pointer function
`next` links it when each node's `next` is the node after it on the ring
`h :: l`, the last element's being `h` again (`Chain`). `prev` links the same
ring backwards, as a chain of `h :: l.reverse`, and `Linked` asks for both,
with no node twice. Then `prev (next x) = x` and `next (prev x) = x` on the ring
(`Linked.prev_next`, `Linked.next_prev`).

Two operations relink a ring, each a few pointer writes: `pushFront` links an
element in right after the head, and `unlink` takes one out by joining its two
neighbours. A linked ring stays linked, with the element moved to the front of
`l` or erased from it (`Linked.pushFront`, `Linked.unlink`). `scan` walks a ring
from a node until it meets the head or a node it looks for; along a chain it is
`List.find?` of the elements (`Chain.scan`).

The node after `x` is `nextIn h r x`, a function of the list alone; the
lemmas about it (`nextIn_getElem`, `nextIn_append_singleton`, `nextIn_erase`)
say what it is at an index, after a push at the back, and after an erase.
-/
import Mathlib.Data.List.Nodup
import Mathlib.Logic.Function.Basic

set_option autoImplicit false

namespace DList

variable {β : Type} [DecidableEq β]

/-! ## The node after another -/

/-- The element after the first `x` in `r`, and `h` after the last. -/
def nextIn (h : β) : List β → β → β
  | [], _ => h
  | y :: r, x => if x = y then r.headD h else nextIn h r x

@[simp] theorem nextIn_nil (h x : β) : nextIn h [] x = h := rfl

theorem nextIn_cons_self (h y : β) (r : List β) : nextIn h (y :: r) y = r.headD h := by
  simp [nextIn]

theorem nextIn_cons_of_ne {h x y : β} (r : List β) (hx : x ≠ y) :
    nextIn h (y :: r) x = nextIn h r x := by
  simp [nextIn, hx]

/-- The node after `x` is on the list after its head, or is `h`. -/
theorem nextIn_mem (h x : β) (r : List β) : nextIn h r x = h ∨ nextIn h r x ∈ r.tail := by
  induction r with
  | nil => exact .inl rfl
  | cons y r ih =>
    by_cases hx : x = y
    · subst hx
      rw [nextIn_cons_self]
      cases r with
      | nil => exact .inl rfl
      | cons z r => exact .inr (List.mem_cons_self ..)
    · rw [nextIn_cons_of_ne r hx]
      rcases ih with h' | h'
      · exact .inl h'
      · exact .inr (List.mem_of_mem_tail h')

/-- On a list without repeats the node after `r[i]` is `r[i + 1]`, or `h` at
the end. -/
theorem nextIn_getElem (h : β) {r : List β} (hr : r.Nodup) {i : Nat} (hi : i < r.length) :
    nextIn h r r[i] = r[i + 1]?.getD h := by
  induction r generalizing i with
  | nil => exact absurd hi (Nat.not_lt_zero _)
  | cons y r ih =>
    cases i with
    | zero =>
      rw [List.getElem_cons_zero, nextIn_cons_self]
      cases r <;> rfl
    | succ k =>
      have hk : k < r.length := by simpa using hi
      have hne : r[k] ≠ y := fun he => (List.nodup_cons.mp hr).1 (he ▸ List.getElem_mem hk)
      rw [List.getElem_cons_succ, nextIn_cons_of_ne r hne, ih (List.nodup_cons.mp hr).2 hk]
      rfl

/-- The node after `y` in `pre ++ y :: r` is the first of `r`. -/
theorem nextIn_append_cons (h : β) {pre r : List β} {y : β} (hy : y ∉ pre) :
    nextIn h (pre ++ y :: r) y = r.headD h := by
  induction pre with
  | nil => exact nextIn_cons_self h y r
  | cons z pre ih =>
    have hz : y ≠ z := fun he => hy (he ▸ List.mem_cons_self ..)
    rw [List.cons_append, nextIn_cons_of_ne _ hz]
    exact ih (fun hm => hy (List.mem_cons_of_mem _ hm))

/-- Pushing `b` at the back: the last node is now followed by `b`, the others
as before. -/
theorem nextIn_append_singleton {h b x : β} {r : List β} (hh : h ∉ r.tail) (hx : x ∈ r) :
    nextIn h (r ++ [b]) x = if nextIn h r x = h then b else nextIn h r x := by
  induction r with
  | nil => exact absurd hx List.not_mem_nil
  | cons y r ih =>
    by_cases hxy : x = y
    · subst hxy
      rw [List.cons_append, nextIn_cons_self, nextIn_cons_self]
      cases r with
      | nil => simp
      | cons z r =>
        have hz : z ≠ h := fun he => hh (he ▸ List.mem_cons_self ..)
        simp [hz]
    · have hr : x ∈ r := (List.mem_cons.mp hx).resolve_left hxy
      rw [List.cons_append, nextIn_cons_of_ne _ hxy, nextIn_cons_of_ne _ hxy]
      exact ih (fun hm => hh (List.mem_of_mem_tail hm)) hr

/-- Around a ring and back: the node after `x` on the reversed ring is the one
before it on the ring, so one step each way returns to `x`. -/
theorem nextIn_nextIn_reverse {h x : β} {l : List β} (hnd : (h :: l).Nodup) (hx : x ∈ h :: l) :
    nextIn h (h :: l.reverse) (nextIn h (h :: l) x) = x := by
  have hnd' : (h :: l.reverse).Nodup :=
    List.nodup_cons.mpr ⟨fun hm => (List.nodup_cons.mp hnd).1 (List.mem_reverse.mp hm),
      List.nodup_reverse.mpr (List.nodup_cons.mp hnd).2⟩
  obtain ⟨i, hi, rfl⟩ := List.mem_iff_getElem.mp hx
  rw [nextIn_getElem h hnd hi]
  have hlen : i < l.length + 1 := by simpa using hi
  rcases Nat.lt_or_ge i l.length with hil | hil
  · -- `x` is not last: the node after it, `l[i]`, stands at `l.length - i` on the reversed ring
    have hb : l.length - i < (h :: l.reverse).length := by
      simp only [List.length_cons, List.length_reverse]
      omega
    have hy : (h :: l)[i + 1]?.getD h = (h :: l.reverse)[l.length - i] := by
      rw [List.getElem?_cons_succ, List.getElem?_eq_getElem hil, Option.getD_some]
      obtain ⟨k, hk⟩ : ∃ k, l.length - i = k + 1 := ⟨l.length - i - 1, by omega⟩
      simp only [hk, List.getElem_cons_succ, List.getElem_reverse]
      congr 1
      omega
    rw [hy, nextIn_getElem h hnd' hb]
    cases i with
    | zero =>
      rw [List.getElem?_eq_none (by simp)]
      rfl
    | succ j =>
      obtain ⟨k, hk⟩ : ∃ k, l.length - (j + 1) + 1 = k + 1 := ⟨l.length - (j + 1), rfl⟩
      rw [hk, List.getElem?_cons_succ, List.getElem?_reverse (by omega), List.getElem_cons_succ,
        List.getElem?_eq_getElem (by omega), Option.getD_some]
      congr 1
      omega
  · -- `x` is last: it is followed by `h`, and `h` on the reversed ring by `x`
    have hi' : i = l.length := by omega
    subst hi'
    rw [List.getElem?_eq_none (by simp), Option.getD_none]
    have h0 := nextIn_getElem h hnd' (i := 0) (by simp)
    rw [List.getElem_cons_zero] at h0
    rw [h0, List.getElem?_cons_succ]
    cases l with
    | nil => rfl
    | cons z l =>
      rw [List.getElem?_reverse (by simp), List.getElem?_eq_getElem (by simp), Option.getD_some]
      simp

/-! ## Rings linked by pointers -/

/-- `next` links `h` and then the elements of `l` into a ring. -/
def Chain (next : β → β) (h : β) (l : List β) : Prop :=
  ∀ x ∈ h :: l, next x = nextIn h (h :: l) x

/-- `next` and `prev` link `h` and `l` into one ring, forwards and backwards,
with no node twice. -/
structure Linked (next prev : β → β) (h : β) (l : List β) : Prop where
  nodup : (h :: l).Nodup
  next : Chain next h l
  prev : Chain prev h l.reverse

theorem Chain.mem {next : β → β} {h x : β} {l : List β} (hc : Chain next h l) (hx : x ∈ h :: l) :
    next x ∈ h :: l := by
  rw [hc x hx]
  rcases nextIn_mem h x (h :: l) with he | hm
  · rw [he]
    exact List.mem_cons_self ..
  · exact List.mem_cons_of_mem _ hm

theorem Linked.nodup_reverse {next prev : β → β} {h : β} {l : List β} (hl : Linked next prev h l) :
    (h :: l.reverse).Nodup :=
  List.nodup_cons.mpr ⟨fun hm => (List.nodup_cons.mp hl.nodup).1 (List.mem_reverse.mp hm),
    List.nodup_reverse.mpr (List.nodup_cons.mp hl.nodup).2⟩

/-- `b->next->prev == b`. -/
theorem Linked.prev_next {next prev : β → β} {h x : β} {l : List β} (hl : Linked next prev h l)
    (hx : x ∈ h :: l) : prev (next x) = x := by
  have hm : next x ∈ h :: l.reverse := by
    simpa using hl.next.mem hx
  rw [hl.prev _ hm, hl.next x hx]
  exact nextIn_nextIn_reverse hl.nodup hx

/-- `b->prev->next == b`. -/
theorem Linked.next_prev {next prev : β → β} {h x : β} {l : List β} (hl : Linked next prev h l)
    (hx : x ∈ h :: l) : next (prev x) = x := by
  have hx' : x ∈ h :: l.reverse := by simpa using hx
  have hm : prev x ∈ h :: l := by
    simpa using hl.prev.mem hx'
  rw [hl.next _ hm, hl.prev x hx']
  have := nextIn_nextIn_reverse hl.nodup_reverse hx'
  rwa [List.reverse_reverse] at this

/-! ## Relinking -/

/-- Link `b` in right after the head: `b->next = head.next; b->prev = head;
head.next->prev = b; head.next = b`. -/
def pushFront (next prev : β → β) (h b : β) : (β → β) × (β → β) :=
  (Function.update (Function.update next b (next h)) h b,
    Function.update (Function.update prev b h) (next h) b)

/-- Take `b` out, joining its neighbours: `b->next->prev = b->prev;
b->prev->next = b->next`. `b`'s own pointers are left as they were. -/
def unlink (next prev : β → β) (b : β) : (β → β) × (β → β) :=
  (Function.update next (prev b) (next b), Function.update prev (next b) (prev b))

/-- Forwards, a node pushed after the head comes first. -/
theorem Chain.pushFront {next : β → β} {h b : β} {l : List β} (hc : Chain next h l)
    (hh : h ∉ l) (hb : b ∉ h :: l) :
    Chain (Function.update (Function.update next b (next h)) h b) h (b :: l) := by
  have hbh : b ≠ h := fun he => hb (he ▸ List.mem_cons_self ..)
  intro x hx
  by_cases hxh : x = h
  · subst hxh
    rw [Function.update_self, nextIn_cons_self]
    rfl
  · rw [Function.update_of_ne hxh, nextIn_cons_of_ne _ hxh]
    by_cases hxb : x = b
    · subst hxb
      rw [Function.update_self, nextIn_cons_self, hc h (List.mem_cons_self ..), nextIn_cons_self]
    · have hxl : x ∈ l := by
        rcases List.mem_cons.mp hx with he | hm
        · exact absurd he hxh
        · exact (List.mem_cons.mp hm).resolve_left hxb
      rw [Function.update_of_ne hxb, hc x (List.mem_cons_of_mem _ hxl), nextIn_cons_of_ne _ hxh,
        nextIn_cons_of_ne _ hxb]

/-- Backwards, a node pushed after the head comes last; `n` is the node whose
`prev` was the head, the only one. -/
theorem Chain.snoc {prev : β → β} {h b n : β} {m : List β} (hc : Chain prev h m) (hh : h ∉ m)
    (hb : b ∉ h :: m) (hn : n ∈ h :: m) (hnh : prev n = h)
    (honly : ∀ x ∈ h :: m, prev x = h → x = n) :
    Chain (Function.update (Function.update prev b h) n b) h (m ++ [b]) := by
  have hnb : n ≠ b := fun he => hb (he ▸ hn)
  intro x hx
  rw [← List.cons_append] at hx ⊢
  rcases List.mem_append.mp hx with hxm | hxb
  · have hxb : x ≠ b := fun he => hb (he ▸ hxm)
    rw [nextIn_append_singleton hh hxm, ← hc x hxm]
    by_cases hxn : x = n
    · subst hxn
      rw [Function.update_self, if_pos hnh]
    · rw [Function.update_of_ne hxn, Function.update_of_ne hxb,
        if_neg (fun he => hxn (honly x hxm he))]
  · rw [List.mem_singleton.mp hxb, Function.update_of_ne (Ne.symm hnb), Function.update_self,
      nextIn_append_cons _ hb]
    rfl

/-- **Pushing a node after the head keeps the ring linked**, with the node first. -/
theorem Linked.pushFront {next prev : β → β} {h b : β} {l : List β} (hl : Linked next prev h l)
    (hb : b ∉ h :: l) :
    Linked (pushFront next prev h b).1 (pushFront next prev h b).2 h (b :: l) := by
  have hh : h ∉ l := (List.nodup_cons.mp hl.nodup).1
  have hb' : b ∉ h :: l.reverse := by simpa using hb
  have hbh : b ≠ h := fun he => hb (he ▸ List.mem_cons_self ..)
  refine ⟨?_, hl.next.pushFront hh hb, ?_⟩
  · refine List.nodup_cons.mpr ⟨fun hm => (List.mem_cons.mp hm).elim (fun he => hbh he.symm) hh, ?_⟩
    exact List.nodup_cons.mpr ⟨fun hm => hb (List.mem_cons_of_mem _ hm), (List.nodup_cons.mp hl.nodup).2⟩
  · rw [List.reverse_cons]
    refine hl.prev.snoc (by simpa using hh) hb' (by simpa using hl.next.mem (List.mem_cons_self ..))
      (hl.prev_next (List.mem_cons_self ..)) fun x hx he => ?_
    have hx' : x ∈ h :: l := by simpa using hx
    rw [← hl.next_prev hx', he]

/-! ## Unlinking

Erasing from a list asks for an equality test; any lawful one will do. -/

section Unlink

variable [BEq β] [LawfulBEq β]

/-- Erasing `b` joins the node before it to the node after it. -/
theorem nextIn_erase {h b x : β} {r : List β} (hr : r.Nodup) (hb : b ∈ r) (hbh : b ≠ h)
    (hx : x ∈ r.erase b) :
    nextIn h (r.erase b) x = if nextIn h r x = b then nextIn h r b else nextIn h r x := by
  induction r with
  | nil => exact absurd hb List.not_mem_nil
  | cons y r ih =>
    obtain ⟨hy, hr'⟩ := List.nodup_cons.mp hr
    by_cases hby : b = y
    · -- `b` is first: erasing it leaves `r`, and no node of `r` is followed by `b`
      subst hby
      rw [List.erase_cons_head] at hx ⊢
      have hxb : x ≠ b := fun he => hy (he ▸ hx)
      rw [nextIn_cons_of_ne r hxb]
      have hne : nextIn h r x ≠ b := by
        rcases nextIn_mem h x r with he | hm
        · rw [he]
          exact hbh.symm
        · exact fun he => hy (he ▸ List.mem_of_mem_tail hm)
      rw [if_neg hne]
    · rw [List.erase_cons_tail (fun he => hby (beq_iff_eq.mp he).symm)] at hx ⊢
      have hbr : b ∈ r := (List.mem_cons.mp hb).resolve_left hby
      by_cases hxy : x = y
      · -- `x` is first: it is followed by `b` exactly when `b` heads `r`
        subst hxy
        rw [nextIn_cons_self, nextIn_cons_self, nextIn_cons_of_ne r hby]
        cases r with
        | nil => exact absurd hbr List.not_mem_nil
        | cons z r =>
          by_cases hbz : b = z
          · subst hbz
            simp [nextIn_cons_self]
          · rw [List.erase_cons_tail (fun he => hbz (beq_iff_eq.mp he).symm)]
            simp [Ne.symm hbz]
      · have hx' : x ∈ r.erase b := (List.mem_cons.mp hx).resolve_left hxy
        rw [nextIn_cons_of_ne _ hxy, nextIn_cons_of_ne _ hxy, nextIn_cons_of_ne _ hby]
        exact ih hr' hbr hx'

/-- Erasing `b` from a chain: `q`, the one node followed by `b`, is now
followed by `b`'s successor. -/
theorem Chain.erase {next : β → β} {h b q : β} {l : List β} (hc : Chain next h l)
    (hnd : (h :: l).Nodup) (hb : b ∈ l) (hq : q ∈ h :: l) (hqb : next q = b)
    (honly : ∀ x ∈ h :: l, next x = b → x = q) :
    Chain (Function.update next q (next b)) h (l.erase b) := by
  have hbh : b ≠ h := fun he => (List.nodup_cons.mp hnd).1 (he ▸ hb)
  have herase : h :: l.erase b = (h :: l).erase b :=
    (List.erase_cons_tail (fun he => hbh (beq_iff_eq.mp he).symm)).symm
  intro x hx
  rw [herase] at hx ⊢
  have hxr : x ∈ h :: l := (List.erase_subset hx)
  rw [nextIn_erase hnd (List.mem_cons_of_mem _ hb) hbh hx, ← hc x hxr,
    ← hc b (List.mem_cons_of_mem _ hb)]
  by_cases hxq : x = q
  · subst hxq
    rw [Function.update_self, if_pos hqb]
  · rw [Function.update_of_ne hxq, if_neg (fun he => hxq (honly x hxr he))]

/-- **Unlinking a node keeps the rest of the ring linked.** -/
theorem Linked.unlink {next prev : β → β} {h b : β} {l : List β} (hl : Linked next prev h l)
    (hb : b ∈ l) : Linked (unlink next prev b).1 (unlink next prev b).2 h (l.erase b) := by
  have hbr : b ∈ h :: l := List.mem_cons_of_mem _ hb
  refine ⟨hl.nodup.sublist (List.cons_sublist_cons.mpr (List.erase_sublist ..)), ?_, ?_⟩
  · -- forwards: the node before `b` is `prev b`
    have hp : prev b ∈ h :: l := by simpa using hl.prev.mem (by simpa using hbr)
    exact hl.next.erase hl.nodup hb hp (hl.next_prev hbr) fun x hx he => by
      rw [← he, hl.prev_next hx]
  · -- backwards: the node before `b` is `next b`
    have hrev : (l.erase b).reverse = l.reverse.erase b :=
      by rw [(List.nodup_cons.mp hl.nodup).2.erase_eq_filter, ← List.filter_reverse,
        (List.nodup_reverse.mpr (List.nodup_cons.mp hl.nodup).2).erase_eq_filter]
    rw [hrev]
    have hn : next b ∈ h :: l.reverse := by simpa using hl.next.mem hbr
    exact hl.prev.erase hl.nodup_reverse (List.mem_reverse.mpr hb) hn (hl.prev_next hbr)
      fun x hx he => by
        have hx' : x ∈ h :: l := by simpa using hx
        rw [← he, hl.next_prev hx']

end Unlink

/-! ## Walking a ring -/

/-- Walk from `x` along `step`, for at most `fuel` nodes, until the head `h` or a
node that `p` accepts: `some (some y)` for the node found, `some none` back at
the head, `none` when the fuel runs out first. -/
def scan (step : β → β) (h : β) (p : β → Bool) : Nat → β → Option (Option β)
  | 0, _ => none
  | fuel + 1, x => if x = h then some none else if p x then some (some x) else scan step h p fuel (step x)

/-- **Along a chain, a walk with enough fuel is a search of the elements in
order.** It starts at any element, and the induction runs over the elements from
there on. -/
theorem Chain.scan {next : β → β} {h : β} {l : List β} (hc : Chain next h l) (hnd : (h :: l).Nodup)
    (p : β → Bool) {pre m : List β} (hl : l = pre ++ m) {fuel : Nat} (hfuel : m.length < fuel) :
    DList.scan next h p fuel (m.headD h) = some (m.find? p) := by
  induction m generalizing pre fuel with
  | nil =>
    obtain ⟨f, rfl⟩ : ∃ f, fuel = f + 1 := ⟨fuel - 1, by
      simp only [List.length_nil] at hfuel
      omega⟩
    simp [DList.scan]
  | cons y m ih =>
    obtain ⟨f, rfl⟩ : ∃ f, fuel = f + 1 := ⟨fuel - 1, by
      simp only [List.length_cons] at hfuel
      omega⟩
    have hnd' : (pre ++ y :: m).Nodup := hl ▸ (List.nodup_cons.mp hnd).2
    have hyh : y ≠ h := fun he => (List.nodup_cons.mp hnd).1 (he ▸ hl ▸ by simp)
    rw [List.headD_cons, DList.scan, if_neg hyh, List.find?_cons]
    by_cases hp : p y = true
    · simp only [hp, if_true]
    · -- the node after `y` heads the rest
      have hy : y ∈ h :: l := List.mem_cons_of_mem _ (hl ▸ by simp)
      have hpre : y ∉ pre := fun hm => (List.nodup_append.mp hnd').2.2 y hm y (by simp) rfl
      have hnext : next y = m.headD h := by
        rw [hc y hy, nextIn_cons_of_ne _ hyh, hl]
        exact nextIn_append_cons h hpre
      simp only [hp, Bool.false_eq_true, if_false, hnext]
      have hfuel' : m.length < f := by
        simp only [List.length_cons] at hfuel
        omega
      exact ih (by simp [hl] : l = (pre ++ [y]) ++ m) hfuel'

end DList
