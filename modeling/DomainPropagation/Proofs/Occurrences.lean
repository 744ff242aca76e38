import DomainPropagation.Pending.Stepwise
import DomainPropagation.Proofs.Calls
import DomainPropagation.Proofs.Events
import Mathlib.Data.List.Induction
import Mathlib.Data.List.Nodup

/-! Occurrences of events. After any calls, what is pending is what has occurred since the last call that emptied the
list, each event once and in the order in which they first did; and so it is exactly as long as the marks are those of
what is listed. -/

namespace DomainPropagation

section EraseDups

variable {α : Type} [BEq α] [LawfulBEq α]

theorem eraseDups_concat (l : List α) (a : α) :
    (l ++ [a]).eraseDups = if a ∈ l then l.eraseDups else l.eraseDups ++ [a] := by
  rw [List.eraseDups_append]
  split
  · next ha => simp [List.removeAll, ha]
  · next ha => simp [List.removeAll, ha, List.eraseDups_cons]

theorem nodup_eraseDups (l : List α) : l.eraseDups.Nodup := by
  induction l using List.reverseRecOn with
  | nil => exact List.nodup_nil
  | append_singleton l a ih =>
    rw [eraseDups_concat]
    split
    · exact ih
    · next ha =>
      rw [← List.concat_eq_append, List.nodup_concat, List.mem_eraseDups]
      exact ⟨ha, ih⟩

theorem eraseDups_eq_self_iff {l : List α} : l.eraseDups = l ↔ l.Nodup := by
  refine ⟨fun h => h ▸ nodup_eraseDups l, fun hn => ?_⟩
  induction l using List.reverseRecOn with
  | nil => rfl
  | append_singleton l a ih =>
    rw [← List.concat_eq_append, List.nodup_concat] at hn
    rw [eraseDups_concat, if_neg hn.1, ih hn.2]

end EraseDups

namespace Pending

inductive Call
  | grow
  | note (e : Event) (x : Var)
  | drain
  | clear

inductive Answer
  | done
  | told (events : List (Event × Var))
deriving DecidableEq

namespace Call

def sizeAfter (n : Nat) : Call → Nat
  | .grow => n + 1
  | _ => n

def Fits (n : Nat) : Call → Prop
  | .note _ x => x.index < n
  | _ => True

instance (n : Nat) : (c : Call) → Decidable (c.Fits n)
  | .note _ x => inferInstanceAs (Decidable (x.index < n))
  | .grow | .drain | .clear => isTrue trivial

def occurred (l : List (Event × Var)) : Call → List (Event × Var)
  | .note e x => l ++ [(e, x)]
  | .drain | .clear => []
  | .grow => l

end Call

def answer (drain : Pending → Except Misuse (List (Event × Var) × Pending)) (p : Pending) :
    Call → Except Misuse (Answer × Pending)
  | .grow => .ok (.done, p.grow)
  | .note e x => return (.done, ← p.note e x)
  | .drain => do
    let (events, p) ← drain p
    return (.told events, p)
  | .clear => .ok (.done, p.clear)

variable {p q : Pending} {e : Event} {x : Var} {l m : List (Event × Var)} {seen t : Table Var EventSet} {c : Call}
  {cs : List Call} {as : List Answer}

theorem unmark_eq_ok_iff :
    unmark seen e x = .ok t ↔ x.index < seen.size ∧ t = seen.modify x (·.erase e) := by
  constructor
  · intro h
    obtain ⟨es, hes, h⟩ := bind_eq_ok_iff.1 h
    obtain ⟨hx, rfl⟩ := Table.set_eq_ok.1 h
    exact ⟨hx, (Table.modify_eq_const (Table.get?_of_get hes) (·.erase e)).symm⟩
  · rintro ⟨hx, rfl⟩
    obtain ⟨es, hes⟩ := Table.lt_size_iff (k := x).1 hx
    rw [unmark, Table.get_eq_ok_iff.2 hes, ok_bind, Table.modify_eq_const hes]
    exact Table.set_eq_ok.2 ⟨hx, rfl⟩

theorem handOut_eq_ok_iff : handOut seen l = .ok (m, t) ↔ (∀ p ∈ l, p.2.index < seen.size) ∧ m = l ∧
    t = l.foldl (fun t (e, x) => t.modify x (·.erase e)) seen := by
  induction l generalizing seen m t with
  | nil => simp [handOut, eq_comm]
  | cons p l ih =>
    rw [handOut, List.forall_mem_cons]
    constructor
    · intro h
      obtain ⟨seen', hseen, h⟩ := bind_eq_ok_iff.1 h
      obtain ⟨⟨m', t'⟩, ht, h⟩ := bind_eq_ok_iff.1 h
      cases h
      obtain ⟨hx, rfl⟩ := unmark_eq_ok_iff.1 hseen
      obtain ⟨hl, rfl, rfl⟩ := ih.1 ht
      exact ⟨⟨hx, fun q hq => (hl q hq).trans_eq (Table.size_modify ..)⟩, rfl, rfl⟩
    · rintro ⟨⟨hx, hl⟩, rfl, rfl⟩
      have hl : ∀ q ∈ l, q.2.index < (seen.modify p.2 (·.erase p.1)).size :=
        fun q hq => (hl q hq).trans_eq (Table.size_modify ..).symm
      rw [unmark_eq_ok_iff.2 ⟨hx, rfl⟩, ok_bind, ih.2 ⟨hl, rfl, rfl⟩]
      rfl

theorem drainStepwise_eq_ok_iff :
    p.drainStepwise = .ok (l, q) ↔ (∀ r ∈ p.events.toList, r.2.index < p.seen.size) ∧ p.drain = (l, q) := by
  rw [drainStepwise, drain, ← Array.foldl_toList]
  constructor
  · intro h
    obtain ⟨⟨m, t⟩, ht, h⟩ := bind_eq_ok_iff.1 h
    obtain ⟨hl, rfl, rfl⟩ := handOut_eq_ok_iff.1 ht
    cases h
    exact ⟨hl, rfl⟩
  · rintro ⟨hl, h⟩
    cases h
    rw [handOut_eq_ok_iff.2 ⟨hl, rfl, rfl⟩]
    rfl

theorem WellFormed.lt_size (hp : p.WellFormed) (he : (e, x) ∈ p.events) : x.index < p.seen.size := by
  obtain ⟨es, hes, -⟩ := (hp e x).1 he
  exact Table.lt_size_iff.2 ⟨es, hes⟩

theorem WellFormed.handOut_take (hp : p.WellFormed) (hn : p.events.toList.Nodup) (k : Nat) :
    ∃ t, handOut p.seen (p.events.toList.take k) = .ok (p.events.toList.take k, t) ∧
      ∀ e x, (e, x) ∈ p.events.toList.drop k ↔ ∃ es, t.get? x = some es ∧ e ∈ es := by
  have hlt : ∀ r ∈ p.events.toList, r.2.index < p.seen.size := fun _ hr => hp.lt_size (Array.mem_toList_iff.1 hr)
  refine ⟨_, handOut_eq_ok_iff.2 ⟨fun r hr => hlt r (List.mem_of_mem_take hr), rfl, rfl⟩, fun e x => ?_⟩
  constructor
  · intro he
    have hx := hlt (e, x) (List.mem_of_mem_drop he)
    rw [← size_foldl_erase (p.events.toList.take k)] at hx
    obtain ⟨es, hes⟩ := Table.lt_size_iff (k := x).1 hx
    obtain ⟨es', hes', hmem⟩ := get?_foldl_erase hes
    obtain ⟨es'', hes'', he'⟩ := (hp e x).1 (Array.mem_toList_iff.1 (List.mem_of_mem_drop he))
    cases hes'.symm.trans hes''
    exact ⟨es, hes, (hmem e).2 ⟨he', fun htake => List.disjoint_take_drop hn le_rfl htake he⟩⟩
  · rintro ⟨es, hes, he⟩
    obtain ⟨es', hes', hmem⟩ := get?_foldl_erase hes
    obtain ⟨he', hnew⟩ := (hmem e).1 he
    have hlisted := Array.mem_toList_iff.2 ((hp e x).2 ⟨es', hes', he'⟩)
    rw [← List.take_append_drop k p.events.toList, List.mem_append] at hlisted
    exact hlisted.resolve_left hnew

def Drains (d : Pending → Except Misuse (List (Event × Var) × Pending)) : Prop :=
  ∀ p : Pending, p.WellFormed → d p = .ok p.drain

theorem drains_drain : Drains (.ok ∘ drain) := fun _ _ => rfl

theorem drains_drainStepwise : Drains drainStepwise := fun _ hp =>
  drainStepwise_eq_ok_iff.2 ⟨fun _ hr => hp.lt_size (Array.mem_toList_iff.1 hr), rfl⟩

structure Tracks (p : Pending) (l : List (Event × Var)) : Prop where
  marks : p.WellFormed
  listed : p.events.toList = l.eraseDups

namespace Tracks

theorem mem_iff (hp : p.Tracks l) : (e, x) ∈ p.events ↔ (e, x) ∈ l := by
  rw [← Array.mem_toList_iff, hp.listed, List.mem_eraseDups]

theorem note (hp : p.Tracks l) (hx : x.index < p.seen.size) (e : Event) :
    ∃ q, p.note e x = .ok q ∧ q.seen.size = p.seen.size ∧ q.Tracks (l ++ [(e, x)]) := by
  obtain ⟨q, hq, hmarks, hsize, -⟩ := note_spec hp.marks hx e
  refine ⟨q, hq, hsize, hmarks, ?_⟩
  rw [toList_note hp.marks hq, eraseDups_concat, if_congr hp.mem_iff rfl rfl, hp.listed]

theorem drain (hp : p.Tracks l) : p.drain.2.Tracks [] := ⟨hp.marks.drain, rfl⟩

theorem clear (p : Pending) : p.clear.Tracks [] := ⟨wellFormed_clear p, rfl⟩

theorem answer (hp : p.Tracks l) (hc : c.Fits p.seen.size) :
    ∃ a q, (∀ d, Drains d → p.answer d c = .ok (a, q)) ∧ q.seen.size = c.sizeAfter p.seen.size ∧
      q.Tracks (c.occurred l) ∧ (c = .drain → a = .told l.eraseDups) := by
  cases c with
  | grow => exact ⟨.done, p.grow, fun _ _ => rfl, Table.size_push .., ⟨hp.marks.grow, hp.listed⟩, nofun⟩
  | note e x =>
    obtain ⟨q, hq, hsize, hq'⟩ := hp.note hc e
    refine ⟨.done, q, fun d _ => ?_, hsize, hq', nofun⟩
    rw [Pending.answer, hq]
    rfl
  | drain =>
    refine ⟨.told p.drain.1, p.drain.2, fun d hd => ?_, size_drain p, hp.drain, fun _ => ?_⟩
    · rw [Pending.answer, hd p hp.marks]
      rfl
    · exact congrArg Answer.told hp.listed
  | clear => exact ⟨.done, p.clear, fun _ _ => rfl, size_clear p, .clear p, nofun⟩

end Tracks

/-- Each drain among the calls tells what has occurred by then since the list was last emptied: each event once, in the
order in which they first did. Before the first call, `l` had. -/
def Told (l : List (Event × Var)) (cs : List Call) (as : List Answer) : Prop :=
  ∀ i : Nat, cs[i]? = some .drain → as[i]? = some (.told ((cs.take i).foldl Call.occurred l).eraseDups)

theorem Told.cons {a : Answer} (ha : c = .drain → a = .told l.eraseDups) (h : Told (c.occurred l) cs as) :
    Told l (c :: cs) (a :: as) := by
  intro i hi
  cases i with
  | zero =>
    cases hi
    exact congrArg some (ha rfl)
  | succ i => exact h i hi

theorem Tracks.answers (hp : p.Tracks l) (hcs : AllFit Call.sizeAfter Call.Fits p.seen.size cs) :
    ∃ as q, (∀ d, Drains d → DomainPropagation.answers (Pending.answer d) p cs = .ok (as, q)) ∧
      q.seen.size = cs.foldl Call.sizeAfter p.seen.size ∧ q.Tracks (cs.foldl Call.occurred l) ∧ Told l cs as := by
  induction cs generalizing p l with
  | nil => exact ⟨[], p, fun _ _ => rfl, rfl, hp, nofun⟩
  | cons c cs ih =>
    obtain ⟨hc, hcs⟩ := hcs
    obtain ⟨a, q, ha, hsize, hq, htold⟩ := hp.answer hc
    rw [← hsize] at hcs
    obtain ⟨as, r, has, hsize', hr, htold'⟩ := ih hq hcs
    refine ⟨a :: as, r, fun d hd => ?_, ?_, hr, htold'.cons htold⟩
    · rw [answers_cons (ha d hd), has d hd]
      rfl
    · rw [hsize', hsize]
      rfl

/-- Whatever is called next, no event is lost and none is told twice. What is listed by now has occurred. -/
def Exact (p : Pending) : Prop :=
  ∀ cs, AllFit Call.sizeAfter Call.Fits p.seen.size cs → ∃ as q,
    answers (answer drainStepwise) p cs = .ok (as, q) ∧ Told p.events.toList cs as

theorem told_of_drain {a : Answer} (h : p.answer drainStepwise .drain = .ok (a, q)) :
    (∀ r ∈ p.events.toList, r.2.index < p.seen.size) ∧ a = .told p.events.toList := by
  obtain ⟨⟨l, p'⟩, hl, h⟩ := bind_eq_ok_iff.1 h
  cases h
  obtain ⟨hlt, hdrain⟩ := drainStepwise_eq_ok_iff.1 hl
  cases hdrain
  exact ⟨hlt, rfl⟩

namespace Exact

theorem drain (h : p.Exact) :
    (∀ r ∈ p.events.toList, r.2.index < p.seen.size) ∧ p.events.toList.eraseDups = p.events.toList := by
  obtain ⟨as, q, has, htold⟩ := h [.drain] ⟨trivial, trivial⟩
  obtain ⟨a, r, as', ha, -, rfl⟩ := answers_cons_eq_ok has
  obtain ⟨hlt, rfl⟩ := told_of_drain ha
  exact ⟨hlt, (Answer.told.inj (Option.some.inj (htold 0 rfl))).symm⟩

theorem note (h : p.Exact) (hx : x.index < p.seen.size) (hq : p.note e x = .ok q) :
    q.events.toList = (p.events.toList ++ [(e, x)]).eraseDups := by
  obtain ⟨as, r, has, htold⟩ := h [.note e x, .drain] ⟨hx, trivial, trivial⟩
  obtain ⟨a, q', as', ha, has', rfl⟩ := answers_cons_eq_ok has
  obtain ⟨b, r', bs, hb, -, rfl⟩ := answers_cons_eq_ok has'
  obtain ⟨q'', hq'', ha⟩ := bind_eq_ok_iff.1 ha
  cases hq.symm.trans hq''
  cases ha
  obtain ⟨-, rfl⟩ := told_of_drain hb
  exact Answer.told.inj (Option.some.inj (htold 1 rfl))

theorem wellFormed (h : p.Exact) : p.WellFormed := by
  intro e x
  constructor
  · intro he
    have hx : x.index < p.seen.size := h.drain.1 (e, x) (Array.mem_toList_iff.2 he)
    obtain ⟨es, hes⟩ := Table.lt_size_iff (k := x).1 hx
    refine ⟨es, hes, ?_⟩
    by_contra hnew
    -- Without its mark the event would be listed again.
    have hnote := h.note hx (note_eq hes e)
    rw [if_neg hnew, Array.toList_push] at hnote
    have hn := nodup_eraseDups (p.events.toList ++ [(e, x)])
    rw [← hnote, ← List.concat_eq_append, List.nodup_concat] at hn
    exact hn.1 (Array.mem_toList_iff.2 he)
  · rintro ⟨es, hes, he⟩
    have hx : x.index < p.seen.size := Table.lt_size_iff.2 ⟨es, hes⟩
    -- With its mark it would not be listed, and so it is already.
    have hnote := h.note hx (note_eq hes e)
    rw [if_pos he] at hnote
    rw [← Array.mem_toList_iff, hnote, List.mem_eraseDups]
    exact List.mem_concat_self

end Exact

theorem exact_iff : p.Exact ↔ p.WellFormed ∧ p.events.toList.Nodup := by
  constructor
  · exact fun h => ⟨h.wellFormed, eraseDups_eq_self_iff.1 h.drain.2⟩
  · rintro ⟨hp, hn⟩ cs hcs
    have ht : p.Tracks p.events.toList := ⟨hp, (eraseDups_eq_self_iff.2 hn).symm⟩
    obtain ⟨as, q, has, -, -, htold⟩ := ht.answers hcs
    exact ⟨as, q, has _ drains_drainStepwise, htold⟩

/-- After any calls, each drain tells the events that have occurred since the list was last drained or cleared, each
once and in the order in which they first did. The marks are always those of what is listed, while it is drained those
of what is left, and once it is drained or cleared any event can be noted anew. What any list with marks tells from
then on is as exact if and only if its marks are those of what is listed, and it lists nothing twice. -/
theorem tells_each_once (cs : List Call) (hcs : AllFit Call.sizeAfter Call.Fits 0 cs) :
    ∃ as p, answers (answer (.ok ∘ drain)) {} cs = .ok (as, p) ∧ answers (answer drainStepwise) {} cs = .ok (as, p) ∧
      p.seen.size = cs.foldl Call.sizeAfter 0 ∧ Told [] cs as ∧
      p.events.toList = (cs.foldl Call.occurred []).eraseDups ∧
      (∀ e x, (e, x) ∈ p.events ↔ ∃ es, p.seen.get? x = some es ∧ e ∈ es) ∧
      (∀ k, ∃ t, handOut p.seen (p.events.toList.take k) = .ok (p.events.toList.take k, t) ∧
        ∀ e x, (e, x) ∈ p.events.toList.drop k ↔ ∃ es, t.get? x = some es ∧ e ∈ es) ∧
      (∀ q ∈ [p.drain.2, p.clear], ∀ (e : Event) (x : Var), x.index < p.seen.size →
        ∃ r, q.note e x = .ok r ∧ r.drain.1 = [(e, x)]) ∧
      ∀ q : Pending, q.Exact ↔ q.WellFormed ∧ q.events.toList.Nodup := by
  have hnil : ({} : Pending).Tracks [] := ⟨fun e x => ⟨nofun, nofun⟩, rfl⟩
  obtain ⟨as, p, has, hsize, hp, htold⟩ := hnil.answers hcs
  have hn : p.events.toList.Nodup := hp.listed ▸ nodup_eraseDups _
  refine ⟨as, p, has _ drains_drain, has _ drains_drainStepwise, hsize, htold, hp.listed, hp.marks,
    hp.marks.handOut_take hn, ?_, fun q => exact_iff⟩
  intro q hq e x hx
  have hempty : q.Tracks [] ∧ q.seen.size = p.seen.size := by
    rcases List.mem_pair.1 hq with rfl | rfl
    · exact ⟨hp.drain, size_drain p⟩
    · exact ⟨.clear p, size_clear p⟩
  obtain ⟨r, hr, -, hnoted⟩ := hempty.1.note (hempty.2 ▸ hx) e
  exact ⟨r, hr, hnoted.listed⟩

theorem tells_each_once_anew :
    let cs : List Call := [.grow, .grow, .note .lower ⟨0⟩, .note .removal ⟨1⟩, .note .lower ⟨0⟩, .drain,
      .note .removal ⟨0⟩, .clear, .grow, .note .assign ⟨2⟩, .note .removal ⟨1⟩, .note .removal ⟨0⟩, .note .assign ⟨2⟩,
      .drain, .note .lower ⟨0⟩]
    AllFit Call.sizeAfter Call.Fits 0 cs ∧ ∃ as p, answers (answer drainStepwise) {} cs = .ok (as, p) ∧
      as[5]? = some (.told [(.lower, ⟨0⟩), (.removal, ⟨1⟩)]) ∧
      as[13]? = some (.told [(.assign, ⟨2⟩), (.removal, ⟨1⟩), (.removal, ⟨0⟩)]) ∧
      p.events.toList = [(.lower, ⟨0⟩)] ∧
      ∀ e x, (e, x) ∈ p.events ↔ ∃ es, p.seen.get? x = some es ∧ e ∈ es := by
  intro cs
  have hcs : AllFit Call.sizeAfter Call.Fits 0 cs := by decide
  obtain ⟨as, p, -, has, -, htold, hlisted, hmarks, -⟩ := tells_each_once cs hcs
  exact ⟨hcs, as, p, has, htold 5 rfl, htold 13 rfl, hlisted, hmarks⟩

end Pending

end DomainPropagation
