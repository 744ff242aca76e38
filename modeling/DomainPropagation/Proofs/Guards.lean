import DomainPropagation.Guarded
import DomainPropagation.Proofs.Operations

/-! Guards never fail. Both bounds of every domain lie within its flags, and so does every value that is on record as
taken out; with all accesses and sums checked, the operations do what they do without. -/

namespace DomainPropagation

namespace Domain

variable {d e : Domain} {v : Int}

def Covers (d : Domain) (v : Int) : Prop := d.origin ≤ v ∧ d.offset v < d.present.size

def frame (d : Domain) : Int × Nat := (d.origin, d.present.size)

theorem Covers.of_frame (h : d.Covers v) (hf : e.frame = d.frame) : e.Covers v := by
  obtain ⟨ho, hs⟩ := Prod.mk.inj hf
  rwa [Covers, offset, ho, hs]

structure Framed (d : Domain) : Prop where
  origin_le : d.origin ≤ d.lower
  lt : d.upper < d.origin + d.present.size

theorem Framed.covers (h : d.Framed) (hl : d.lower ≤ v) (hu : v ≤ d.upper) : d.Covers v := by
  have := h.origin_le
  have := h.lt
  refine ⟨by omega, ?_⟩
  rw [offset]
  omega

theorem WellFormed.covers (h : d.WellFormed) (hv : v ∈ d) : d.Covers v :=
  ⟨h.origin_le_of_mem hv, offset_lt hv⟩

theorem WellFormed.framed (h : d.WellFormed) : d.Framed where
  origin_le := h.origin_le
  lt := by
    obtain ⟨ho, hs⟩ := h.covers h.upper_mem
    rw [offset] at hs
    omega

theorem frame_setFlag (d : Domain) (v : Int) (b : Bool) : (d.setFlag v b).frame = d.frame := by
  simp [frame, setFlag]

theorem Framed.setFlag (h : d.Framed) (v : Int) (b : Bool) : (d.setFlag v b).Framed := by
  obtain ⟨ho, hs⟩ := Prod.mk.inj (frame_setFlag d v b)
  exact ⟨ho.trans_le h.origin_le, by rw [ho, hs]; exact h.lt⟩

theorem frame_leaveLower? (h : d.leaveLower? v = some e) : e.frame = d.frame := by
  rw [leaveLower?] at h
  split at h
  · obtain ⟨l, -, rfl⟩ := Option.map_eq_some_iff.1 h
    rfl
  · cases h
    rfl

theorem frame_leaveUpper? (h : d.leaveUpper? v = some e) : e.frame = d.frame := by
  rw [leaveUpper?] at h
  split at h
  · obtain ⟨l, -, rfl⟩ := Option.map_eq_some_iff.1 h
    rfl
  · cases h
    rfl

theorem frame_erase? (h : d.erase? v = some e) : e.frame = d.frame := by
  obtain ⟨m, hm, he⟩ := Option.bind_eq_some_iff.1 h
  rw [frame_leaveUpper? he, frame_leaveLower? hm, frame_setFlag]

theorem Trim.frame_eq {removed : Option Int} {events : List Event} (h : d.Trim removed events e) :
    e.frame = d.frame := by
  cases h with
  | take _ he => exact frame_erase? he
  | _ => rfl

theorem pairwise_values (d : Domain) : d.values.Pairwise (· < ·) := by
  apply List.Pairwise.filter
  rw [List.pairwise_map]
  exact List.pairwise_lt_range.imp fun h => by omega

end Domain

namespace Guarded

open Domain

variable {d e : Domain} {v : Int} {n : Nat}

theorem readFlag_eq (h : d.Covers v) : readFlag d v = .ok (d.flag v) := if_pos h

theorem writeFlag_eq (h : d.Covers v) (b : Bool) : writeFlag d v b = .ok (d.setFlag v b) := if_pos h

theorem contains_eq (h : d.Framed) (v : Int) : contains d v = .ok (d.contains v) := by
  rw [contains, Domain.contains]
  by_cases hb : d.lower ≤ v ∧ v ≤ d.upper
  · rw [if_pos hb, readFlag_eq (h.covers hb.1 hb.2), decide_eq_true hb.1, decide_eq_true hb.2]
    rfl
  · rw [if_neg hb, ← Bool.decide_and, decide_eq_false hb]
    rfl

theorem held_eq (h : d.Framed) (vs : List Int) : held d vs = .ok (vs.filter d.contains) := by
  induction vs with
  | nil => rfl
  | cons v vs ih =>
    rw [held, contains_eq h, ok_bind, ih, ok_bind, List.filter_cons]
    rfl

theorem values_eq (h : d.Framed) : values d = .ok d.values := held_eq h _

theorem seekUp_eq (h : d.Framed) (n : Nat) (v : Int) : seekUp d n v = .ok (d.seekUp n v) := by
  induction n generalizing v with
  | zero => rfl
  | succ n ih =>
    rw [seekUp, contains_eq h, ok_bind, Domain.seekUp, ih]
    split <;> rfl

theorem seekDown_eq (h : d.Framed) (n : Nat) (v : Int) : seekDown d n v = .ok (d.seekDown n v) := by
  induction n generalizing v with
  | zero => rfl
  | succ n ih =>
    rw [seekDown, contains_eq h, ok_bind, Domain.seekDown, ih]
    split <;> rfl

theorem firstFrom_eq (h : d.Framed) (v : Int) : firstFrom d v = .ok (d.firstFrom? v) := seekUp_eq h _ _

theorem lastUpTo_eq (h : d.Framed) (v : Int) : lastUpTo d v = .ok (d.lastUpTo? v) := seekDown_eq h _ _

theorem leaveLower_eq (h : d.Framed) (hv : v = d.lower → minValue ≤ v + 1 ∧ v + 1 ≤ maxValue)
    (he : d.leaveLower? v = some e) : leaveLower d v = .ok e := by
  rw [leaveLower, leaveLower?] at *
  split at he
  · next hl =>
    obtain ⟨l, hl', rfl⟩ := Option.map_eq_some_iff.1 he
    rw [if_pos hl, word, if_pos (hv hl), ok_bind, firstFrom_eq h, hl']
    rfl
  · next hl =>
    cases he
    exact if_neg hl

theorem leaveUpper_eq (h : d.Framed) (hv : v = d.upper → minValue ≤ v - 1 ∧ v - 1 ≤ maxValue)
    (he : d.leaveUpper? v = some e) : leaveUpper d v = .ok e := by
  rw [leaveUpper, leaveUpper?] at *
  split at he
  · next hl =>
    obtain ⟨l, hl', rfl⟩ := Option.map_eq_some_iff.1 he
    rw [if_pos hl, word, if_pos (hv hl), ok_bind, lastUpTo_eq h, hl']
    rfl
  · next hl =>
    cases he
    exact if_neg hl

theorem erase_eq (hd : d.WellFormed) (hv : v ∈ d) (he : d.erase? v = some e) : erase d v = .ok e := by
  obtain ⟨hn, hS, -⟩ := hd.erase?_eq_some hv he
  -- The value that stays is what the two searches are certain to find.
  obtain ⟨hle, hne⟩ : e.lower ∈ d ∧ e.lower ≠ v := hS.subset hn.lower_mem
  have := lower_le hle
  have := le_upper hle
  have := lower_le hv
  have := le_upper hv
  have := hd.min_le
  have := hd.le_max
  obtain ⟨m, hm, he⟩ := Option.bind_eq_some_iff.1 he
  have hf := hd.framed.setFlag v false
  obtain ⟨⟨l, rfl, hl⟩, -⟩ := leaveLower?_eq_some (hd.not_mem_setFlag hv) hm
  have hlow : (d.setFlag v false).lower ≤ l := hl.elim (fun hl => hl.1.ge) lower_le
  have hm' : leaveLower (d.setFlag v false) v = .ok _ :=
    leaveLower_eq hf (fun hl => by change v = d.lower at hl; omega) hm
  have he' : leaveUpper { d.setFlag v false with lower := l } v = .ok e :=
    leaveUpper_eq ⟨hf.origin_le.trans hlow, hf.lt⟩ (fun hu => by change v = d.upper at hu; omega) he
  rw [erase, writeFlag_eq (hd.covers hv), ok_bind, hm', ok_bind, he']

theorem erase_cases (hd : d.WellFormed) (hv : v ∈ d) :
    d.isFixed = true ∧ d.erase? v = none ∨
      d.isFixed = false ∧ ∃ e, d.erase? v = some e ∧ erase d v = .ok e ∧ e.WellFormed := by
  cases he : d.erase? v with
  | none =>
    have hs := hd.erase?_eq_none hv he
    exact .inl ⟨hd.isFixed_iff.2 (hs ▸ Set.subsingleton_singleton), rfl⟩
  | some e =>
    obtain ⟨hn, hS, -⟩ := hd.erase?_eq_some hv he
    obtain ⟨hle, hne⟩ := hS.subset hn.lower_mem
    have hf : ¬ d.isFixed = true := fun hf => hne (hd.isFixed_iff.1 hf hle hv)
    exact .inr ⟨Bool.eq_false_iff.2 hf, e, rfl, erase_eq hd hv he, hn⟩

variable {s t : Domains} {x : Var} {α β : Type}

theorem lift_bind (r : Except Misuse α) (f : α → Except Misuse β) :
    lift (r >>= f) = lift r >>= fun a => lift (f a) := by
  cases r <;> rfl

theorem removeInitial_eq (hs : s.WellFormed) (x : Var) (v : Int) :
    removeInitial s x v = lift (s.removeInitial x v) := by
  rw [removeInitial, Domains.removeInitial]
  split
  · rw [lift_bind]
    cases hx : s.get x with
    | error m => rfl
    | ok d =>
      have hd := hs.sound x d (Domains.get_eq_ok_iff.1 hx)
      change (contains d v >>= _) = _
      rw [contains_eq hd.framed, ok_bind]
      change (if d.contains v = true then _ else _) = lift (if d.contains v = true then _ else _)
      split
      · next hv =>
        rcases erase_cases hd hv with ⟨hf, he⟩ | ⟨hf, e, he, he', -⟩
        · rw [hf, he]
          rfl
        · rw [hf, he, he']
          rfl
      · rfl
  · rfl

theorem cutBelow_eq (hs : s.WellFormed) (x : Var) (b : Int) : cutBelow s x b = lift (s.cutBelow x b) := by
  rw [cutBelow, Domains.cutBelow, lift_bind]
  cases hx : s.get x with
  | error m => rfl
  | ok d =>
    have hd := hs.sound x d (Domains.get_eq_ok_iff.1 hx)
    change (if b ≤ d.lower then _ else _) = lift (if b ≤ d.lower then _ else _)
    split
    · rfl
    · rw [firstFrom_eq hd.framed, ok_bind]
      cases d.firstFrom? b <;> rfl

theorem cutAbove_eq (hs : s.WellFormed) (x : Var) (b : Int) : cutAbove s x b = lift (s.cutAbove x b) := by
  rw [cutAbove, Domains.cutAbove, lift_bind]
  cases hx : s.get x with
  | error m => rfl
  | ok d =>
    have hd := hs.sound x d (Domains.get_eq_ok_iff.1 hx)
    change (if d.upper ≤ b then _ else _) = lift (if d.upper ≤ b then _ else _)
    split
    · rfl
    · rw [lastUpTo_eq hd.framed, ok_bind]
      cases d.lastUpTo? b <;> rfl

theorem cutOut_eq (hs : s.WellFormed) (x : Var) (v : Int) : cutOut s x v = lift (s.cutOut x v) := by
  rw [cutOut, Domains.cutOut, lift_bind]
  cases hx : s.get x with
  | error m => rfl
  | ok d =>
    have hd := hs.sound x d (Domains.get_eq_ok_iff.1 hx)
    change (contains d v >>= _) = _
    rw [contains_eq hd.framed, ok_bind]
    change (if d.contains v = true then _ else _) = lift (if d.contains v = true then _ else _)
    split
    · next hv =>
      rcases erase_cases hd hv with ⟨hf, he⟩ | ⟨hf, e, he, he', hn⟩
      · rw [hf, he]
        rfl
      · rw [hf, he, he']
        have hl : contains e e.lower = .ok true := (contains_eq hn.framed _).trans (congrArg _ hn.lower_mem)
        have hu : contains e e.upper = .ok true := (contains_eq hn.framed _).trans (congrArg _ hn.upper_mem)
        have hr (r : Except Misuse Written) : (lift r >>= fun w => do
            assert (← contains e e.lower)
            assert (← contains e e.upper)
            return w) = lift r := by
          cases r with
          | error m => rfl
          | ok w =>
            rw [hl, hu]
            rfl
        exact hr _
    · rfl

theorem cutAround_eq (hs : s.WellFormed) (x : Var) (l u : Int) : cutAround s x l u = lift (s.cutAround x l u) := by
  rw [cutAround, Domains.cutAround, lift_bind]
  cases hx : s.get x with
  | error m => rfl
  | ok d =>
    have hd := hs.sound x d (Domains.get_eq_ok_iff.1 hx)
    have hl : d.firstFrom? (max l d.lower) = d.firstFrom? l := by
      rw [Domain.firstFrom?, Domain.firstFrom?, max_assoc, max_self]
    change (firstFrom d (max l d.lower) >>= _) = _
    rw [firstFrom_eq hd.framed, ok_bind, hl]
    change (if (d.firstFrom? l).any _ = true then _ else _) = lift (if (d.firstFrom? l).any _ = true then _ else _)
    split
    · rw [cutBelow_eq hs, lift_bind]
      cases hw : s.cutBelow x l with
      | error m => rfl
      | ok w =>
        have hwf := (Domains.narrows_of_cut (c := .atLeast l) hs hw).wellFormed
        obtain ⟨D, status⟩ := w
        cases status with
        | ok _ => exact cutAbove_eq hwf x u
        | error _ => rfl
    · rfl

theorem cut_eq (hs : s.WellFormed) (x : Var) (c : Cut) : cut s x c = lift (s.cut x c) := by
  cases c with
  | atLeast b => exact cutBelow_eq hs x b
  | atMost b => exact cutAbove_eq hs x b
  | without v => exact cutOut_eq hs x v
  | within l u => exact cutAround_eq hs x l u

variable {T U V : Table Var Domain} {c : Change} {cs : List Change} {op : Domains.Operation}
  {ops : List Domains.Operation} {o : Option Int}

def SameFrames (T U : Table Var Domain) : Prop :=
  ∀ x d, T.get? x = some d → ∃ e, U.get? x = some e ∧ e.frame = d.frame

theorem SameFrames.refl (T : Table Var Domain) : SameFrames T T := fun _ d hd => ⟨d, hd, rfl⟩

theorem SameFrames.trans (h : SameFrames T U) (h' : SameFrames U V) : SameFrames T V := by
  intro x d hd
  obtain ⟨e, he, hf⟩ := h x d hd
  obtain ⟨e', he', hf'⟩ := h' x e he
  exact ⟨e', he', hf'.trans hf⟩

theorem sameFrames_modify {f : Domain → Domain} (hf : ∀ d, T.get? x = some d → (f d).frame = d.frame) :
    SameFrames T (T.modify x f) := by
  intro y d hd
  rw [Table.get?_modify, hd]
  split
  · next hxy =>
    cases Var.key_inj.1 hxy
    exact ⟨_, rfl, hf d hd⟩
  · exact ⟨d, rfl, rfl⟩

theorem sameFrames_push (T : Table Var Domain) (e : Domain) : SameFrames T (T.push e) := by
  intro x d hd
  have hlt : Key.index x < T.size := Table.lt_size_iff.2 ⟨d, hd⟩
  rw [Table.get?_push, if_neg hlt.ne]
  exact ⟨d, hd, rfl⟩

theorem frame_revert (c : Change) (d : Domain) : (c.revert d).frame = d.frame := by
  rw [Change.revert]
  split
  · rfl
  · exact frame_setFlag _ _ _

theorem sameFrames_foldl_undo (cs : List Change) (T : Table Var Domain) :
    SameFrames T (cs.foldl Domains.undo T) := by
  induction cs generalizing T with
  | nil => exact .refl T
  | cons c cs ih => exact (sameFrames_modify fun d _ => frame_revert c d).trans (ih _)

def Recorded (T : Table Var Domain) (cs : List Change) : Prop :=
  ∀ c ∈ cs, ∃ d, T.get? c.var = some d ∧ ∀ v, c.removed = some v → d.Covers v

theorem Recorded.of_frames (h : Recorded T cs) (hf : SameFrames T U) : Recorded U cs := by
  intro c hc
  obtain ⟨d, hd, hv⟩ := h c hc
  obtain ⟨e, he, hf⟩ := hf c.var d hd
  exact ⟨e, he, fun v hr => (hv v hr).of_frame hf⟩

theorem undo_eq (hx : T.get? c.var = some d) (hv : ∀ v, c.removed = some v → d.Covers v) :
    undo T c = .ok (Domains.undo T c) := by
  rw [undo, Table.get_eq_ok_iff.2 hx, Domains.undo, Table.modify_eq_const hx]
  obtain ⟨y, l, u, removed⟩ := c
  cases removed with
  | none => rfl
  | some v =>
    have hc : Covers { d with lower := l, upper := u } v := hv v rfl
    change (writeFlag { d with lower := l, upper := u } v true >>= _) = _
    rw [writeFlag_eq hc]
    rfl

theorem foldlM_undo_eq (h : Recorded T cs) : cs.foldlM undo T = .ok (cs.foldl Domains.undo T) := by
  induction cs generalizing T with
  | nil => rfl
  | cons c cs ih =>
    obtain ⟨hc, hcs⟩ := List.forall_mem_cons.1 h
    obtain ⟨d, hd, hv⟩ := hc
    rw [List.foldlM_cons, undo_eq hd hv, ok_bind]
    exact ih (Recorded.of_frames hcs (sameFrames_modify fun d _ => frame_revert c d))

theorem backTo_eq (hr : Recorded s.table s.trail.entries) (k : Nat) : backTo s k = lift (s.backTo k) := by
  rw [backTo, Domains.backTo, lift_bind]
  by_cases hk : k < s.trail.level
  · have hr : Recorded s.table (s.trail.above k) := fun c hc => hr c (List.mem_of_mem_take hc)
    rw [Trail.backTo_eq hk]
    change (List.foldlM undo s.table (s.trail.above k) >>= _) = _
    rw [foldlM_undo_eq hr]
    rfl
  · rw [Trail.backTo, if_neg hk]
    rfl

theorem recorded_trims (h : Domains.Trims x o s t) (hs : s.WellFormed) (hr : Recorded s.table s.trail.entries) :
    Recorded t.table t.trail.entries := by
  induction h with
  | refl => exact hr
  | @step s t d e events w hx hd hw _ ih =>
    have hx := Domains.get_eq_ok_iff.1 hx
    have hwd := hs.sound x d hx
    obtain ⟨w', hw', hN⟩ := Domains.replace_spec hs hx hd (Set.inter_eq_right.2 (hd.subset hwd)).symm
    cases hw.symm.trans hw'
    apply ih hN.wellFormed
    obtain ⟨p, -, hw⟩ := bind_eq_ok_iff.1 hw
    cases hw
    have hf : SameFrames s.table (s.table.modify x fun _ => e) := sameFrames_modify fun d' hd' => by
      rw [Option.some.inj (hd'.symm.trans hx), hd.frame_eq]
    intro c hc
    rcases List.mem_cons.1 hc with rfl | hc
    · obtain ⟨e', he', hf'⟩ := hf x d hx
      exact ⟨e', he', fun v hv => (hwd.covers (hd.not_mem_of_removed hwd hv).1).of_frame hf'⟩
    · exact Recorded.of_frames hr hf c hc

theorem recorded_removeInitial {v : Int} {w : Written} (hr : Recorded s.table s.trail.entries)
    (h : s.removeInitial x v = .ok w) : Recorded w.domains.table w.domains.trail.entries := by
  rw [Domains.removeInitial] at h
  split at h
  · obtain ⟨d, hd, h⟩ := bind_eq_ok_iff.1 h
    split at h
    · split at h
      · cases h
        exact hr
      · next e he =>
        cases h
        refine hr.of_frames (sameFrames_modify fun d' hd' => ?_)
        rw [Option.some.inj (hd'.symm.trans (Domains.get_eq_ok_iff.1 hd)), frame_erase? he]
    · cases h
      exact hr
  · cases h

theorem recorded_perform (hs : s.WellFormed) (hr : Recorded s.table s.trail.entries) (h : s.perform op = .ok t) :
    Recorded t.table t.trail.entries := by
  cases op with
  | add l u =>
    rw [Domains.perform, Domains.addInterval] at h
    split at h
    · cases h
      exact hr.of_frames (sameFrames_push _ _)
    · cases h
  | removeInitial x v =>
    obtain ⟨w, hw, rfl⟩ := map_eq_ok_iff.1 h
    exact recorded_removeInitial hr hw
  | cut x c =>
    obtain ⟨w, hw, rfl⟩ := map_eq_ok_iff.1 h
    exact recorded_trims (Domains.trims_of_cut hw) hs hr
  | openLevel | drain | clear =>
    cases h
    exact hr
  | backTo k =>
    have hk := Domains.lt_of_backTo h
    cases (Domains.backTo_eq hk).symm.trans h
    exact Recorded.of_frames (fun c hc => hr c (List.mem_of_mem_drop hc)) (sameFrames_foldl_undo _ _)

end Guarded

namespace Domains

variable {s t : Domains} {op : Operation} {ops : List Operation} {x : Var} {d : Domain}

def Operation.Fits (s : Domains) : Operation → Prop
  | .add lower upper => lower ≤ upper
  | .removeInitial x _ => x.index < s.count ∧ s.level = 0
  | .cut x _ => x.index < s.count
  | .backTo target => target < s.level
  | _ => True

def performGuarded (s : Domains) : Operation → Except Fault Domains
  | .removeInitial x v => (·.domains) <$> Guarded.removeInitial s x v
  | .cut x c => (·.domains) <$> Guarded.cut s x c
  | .backTo target => Guarded.backTo s target
  | op => Guarded.lift (s.perform op)

def runGuarded (s : Domains) (ops : List Operation) : Except Fault Domains := ops.foldlM performGuarded s

theorem WellFormed.performGuarded_eq (hs : s.WellFormed) (hr : Guarded.Recorded s.table s.trail.entries)
    (op : Operation) : s.performGuarded op = Guarded.lift (s.perform op) := by
  cases op with
  | removeInitial x v =>
    rw [Domains.performGuarded, Guarded.removeInitial_eq hs, Domains.perform]
    cases s.removeInitial x v <;> rfl
  | cut x c =>
    rw [Domains.performGuarded, Guarded.cut_eq hs, Domains.perform]
    cases s.cut x c <;> rfl
  | backTo k => exact Guarded.backTo_eq hr k
  | _ => rfl

theorem WellFormed.runGuarded_eq (hs : s.WellFormed) (hr : Guarded.Recorded s.table s.trail.entries)
    (hops : ∀ op ∈ ops, op.Allowed) : s.runGuarded ops = Guarded.lift (s.run ops) := by
  induction ops generalizing s with
  | nil => rfl
  | cons op ops ih =>
    obtain ⟨hop, hops⟩ := List.forall_mem_cons.1 hops
    rw [Domains.runGuarded, Domains.run, List.foldlM_cons, List.foldlM_cons, Guarded.lift_bind, hs.performGuarded_eq hr]
    cases ht : s.perform op with
    | error m => rfl
    | ok t => exact ih (hs.perform hop ht) (Guarded.recorded_perform hs hr ht) hops

theorem recorded_run (hs : s.WellFormed) (hr : Guarded.Recorded s.table s.trail.entries)
    (hops : ∀ op ∈ ops, op.Allowed) (h : s.run ops = .ok t) : Guarded.Recorded t.table t.trail.entries := by
  induction ops generalizing s with
  | nil =>
    cases h
    exact hr
  | cons op ops ih =>
    obtain ⟨hop, hops⟩ := List.forall_mem_cons.1 hops
    obtain ⟨u, hu, h⟩ := bind_eq_ok_iff.1 h
    exact ih (hs.perform hop hu) (Guarded.recorded_perform hs hr hu) hops h

theorem WellFormed.exists_perform (hs : s.WellFormed) (h : op.Fits s) : ∃ t, s.perform op = .ok t := by
  cases op with
  | add l u => exact ⟨_, if_pos h⟩
  | removeInitial x v =>
    obtain ⟨d, hd⟩ := Table.lt_size_iff (k := x).1 h.1
    rw [Domains.perform, Domains.removeInitial, if_pos h.2, get_eq_ok_iff.2 hd, ok_bind]
    split
    · split <;> exact ⟨_, rfl⟩
    · exact ⟨_, rfl⟩
  | cut x c =>
    obtain ⟨w, hw, -⟩ := cut_spec hs h c
    exact ⟨w.domains, map_eq_ok_iff.2 ⟨w, hw, rfl⟩⟩
  | backTo k => exact ⟨_, backTo_eq h⟩
  | openLevel | drain | clear => exact ⟨_, rfl⟩

/-- Whatever has been done to the domains, both bounds of each are among its flags and are set, and the values are
listed in increasing order. So no operation reads or writes a flag that is not there, adds beyond the 32-bit numbers or
searches in vain for what it relies on, and none has before; and one that is given what it asks for succeeds. -/
theorem guarded_sound (hops : ∀ op ∈ ops, op.Allowed) (hs : run {} ops = .ok s) :
    runGuarded {} ops = .ok s ∧
    (∀ x d, s.get x = .ok d →
      (d.origin ≤ d.lower ∧ d.lower ≤ d.upper ∧ d.upper ≤ d.origin + d.present.size - 1) ∧
      (d.flag d.lower = true ∧ d.flag d.upper = true) ∧
      (∀ v, Guarded.contains d v = .ok (d.contains v)) ∧ Guarded.values d = .ok d.values ∧
      d.values.Pairwise (· < ·) ∧ ∀ v, v ∈ d.values ↔ v ∈ d) ∧
    ∀ op : Operation, s.performGuarded op = Guarded.lift (s.perform op) ∧
      (op.Fits s → ∃ t, s.perform op = .ok t ∧ s.performGuarded op = .ok t) := by
  have hnil : Guarded.Recorded ({} : Domains).table ({} : Domains).trail.entries := fun _ hc => nomatch hc
  have hwf := wellFormed_new.run hops hs
  have hr := recorded_run wellFormed_new hnil hops hs
  refine ⟨(wellFormed_new.runGuarded_eq hnil hops).trans (congrArg _ hs), fun x d hd => ?_, fun op => ?_⟩
  · have hd := hwf.sound x d (get_eq_ok_iff.1 hd)
    have hf := hd.framed
    have hlt := hf.lt
    exact ⟨⟨hf.origin_le, Domain.lower_le hd.upper_mem, by omega⟩, ⟨(Domain.mem_iff.1 hd.lower_mem).2,
      (Domain.mem_iff.1 hd.upper_mem).2⟩, Guarded.contains_eq hf, Guarded.values_eq hf, d.pairwise_values,
      fun v => Domain.mem_values⟩
  · have heq := hwf.performGuarded_eq hr op
    refine ⟨heq, fun hfit => ?_⟩
    obtain ⟨t, ht⟩ := hwf.exists_perform hfit
    exact ⟨t, ht, heq.trans (congrArg _ ht)⟩

theorem guarded_sound_at_ends : ∃ (ops : List Operation) (s : Domains) (d e : Domain),
    (∀ op ∈ ops, op.Allowed) ∧ run {} ops = .ok s ∧ runGuarded {} ops = .ok s ∧ s.level = 1 ∧
    s.get ⟨0⟩ = .ok d ∧ Guarded.values d = .ok [minValue + 1, minValue + 3] ∧
    s.get ⟨1⟩ = .ok e ∧ Guarded.values e = .ok [maxValue - 3, maxValue - 1, maxValue] ∧
    (∃ t, s.perform (.cut ⟨1⟩ (.without maxValue)) = .ok t ∧ s.performGuarded (.cut ⟨1⟩ (.without maxValue)) = .ok t) ∧
    ∃ t, s.perform (.backTo 0) = .ok t ∧ s.performGuarded (.backTo 0) = .ok t := by
  let ops : List Operation := [.add minValue (minValue + 3), .add (maxValue - 3) maxValue, .removeInitial ⟨0⟩ minValue,
    .openLevel, .cut ⟨0⟩ (.without (minValue + 2)), .cut ⟨1⟩ (.without (maxValue - 2)), .openLevel,
    .cut ⟨1⟩ (.without maxValue), .cut ⟨0⟩ (.atLeast maxValue), .cut ⟨0⟩ (.without (minValue + 1)), .backTo 1]
  have hops : ∀ op ∈ ops, op.Allowed := by simp [ops, Operation.Allowed, minValue, maxValue]
  have hrun : (run {} ops).toOption.any (fun s => decide (s.level = 1 ∧ 2 = s.count) &&
      ((s.get ⟨0⟩).toOption.any fun d => decide (d.values = [minValue + 1, minValue + 3])) &&
      (s.get ⟨1⟩).toOption.any fun d => decide (d.values = [maxValue - 3, maxValue - 1, maxValue])) = true := by
    decide +kernel
  obtain ⟨s, hs, hrun⟩ := exists_ok_of_any hrun
  simp only [Bool.and_eq_true, decide_eq_true_eq] at hrun
  obtain ⟨⟨⟨hl, hc⟩, hd⟩, he⟩ := hrun
  obtain ⟨d, hd, hdv⟩ := exists_ok_of_any hd
  obtain ⟨e, he, hev⟩ := exists_ok_of_any he
  obtain ⟨hg, hdom, hop⟩ := guarded_sound hops hs
  refine ⟨ops, s, d, e, hops, hs, hg, hl, hd, ?_, he, ?_, ?_, ?_⟩
  · rw [(hdom _ d hd).2.2.2.1, of_decide_eq_true hdv]
  · rw [(hdom _ e he).2.2.2.1, of_decide_eq_true hev]
  · exact (hop _).2 (Nat.one_lt_two.trans_eq hc)
  · exact (hop (.backTo 0)).2 (Nat.one_pos.trans_eq hl.symm)

end Domains

end DomainPropagation
