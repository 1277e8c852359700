import OpBase.Cache.Manager
import OpBase.Lib.Places

/-!
# Who deletes a cached execution

Every execution that was added has one place: a map of the manager, the list of an
execution it is parked on, a gc queue, or the executor it was given back to. `Inv`
says so for the executions of a set `U`; each operation deals two places out anew
(`Placed.regroup`), and a full gc queue loses some of `U`.

> `Inv.step`: a step that puts no execution into both maps and takes out only what
> is there keeps `Inv`, and loses nothing where the gc queues have room.
>
> `owned_once`: in a run of such steps each execution is deleted at most once, the
> maps hold no deleted or removed one, each one that is not deleted has exactly one
> place, and the gc thread gets to each entry of its queue.
-/

namespace OpBase.Cache

open List

open Function (update update_of_ne update_self)
open OpBase.Lib
open Option (some.inj)

/-- Where an execution can be. -/
inductive Place where
  | cache
  | cache2
  | shrinkList (e : ExecId)
  | gcQueue (n : Nat)
  | owned
deriving DecidableEq

namespace Manager

def content (m : Manager) : Place → List ExecId
  | .cache => m.cache.map Prod.snd
  | .cache2 => m.cache2
  | .shrinkList e => (m.exec e).shrinkList
  | .gcQueue n => m.gcQueue n
  | .owned => m.owned

/-- The executions of `U` have one place each, no other execution has one, and what is
parked is parked on a live execution. -/
structure Inv (U : ExecId → Prop) (m : Manager) : Prop where
  placed : Placed U m.content
  live : ∀ {e}, U e → m.Live e
  parent : ∀ {f e}, e ∈ (m.exec f).shrinkList → m.Live f
  once : ∀ e, m.deletions e ≤ 1
  fresh : ∀ {e}, m.nextExec ≤ e → m.deletions e = 0

/-- Each execution that was added and not deleted has one place. -/
def Sound (m : Manager) : Prop := Inv m.Live m

/-- An empty manager. -/
theorem inv_init (cacheLimit : Nat) : Inv (fun _ => False) (init cacheLimit) where
  placed := by
    have hnil : ∀ p, (init cacheLimit).content p = [] := fun p => by cases p <;> rfl
    refine ⟨fun p => hnil p ▸ nodup_nil, fun h => ?_, fun x => ?_⟩
    · exact absurd (hnil _ ▸ h) not_mem_nil
    · exact iff_of_false (fun ⟨p, hp⟩ => absurd (hnil p ▸ hp) not_mem_nil) not_false
  live := False.elim
  parent := fun h => absurd h not_mem_nil
  once := fun _ => Nat.zero_le 1
  fresh := fun _ => rfl

variable {U V : ExecId → Prop} {m m' : Manager} {e f : ExecId} {n : Nat} {es : List ExecId}
  {x : ExecId} {key : List Byte} {name : String}

theorem Inv.congr (h : Inv U m) (hU : ∀ x, V x ↔ U x) : Inv V m :=
  { h with placed := h.placed.congr hU, live := fun hx => h.live ((hU _).mp hx) }

theorem Inv.frame (h : Inv U m) (hcontent : m'.content = m.content)
    (hnext : m'.nextExec = m.nextExec) (hdel : m'.deletions = m.deletions) : Inv U m' := by
  have hlive : ∀ x, m'.Live x ↔ m.Live x := fun x => by unfold Live; rw [hnext, hdel]
  constructor
  · exact hcontent ▸ h.placed
  · exact fun hx => (hlive _).mpr (h.live hx)
  · intro f x hx
    have hx' : x ∈ m'.content (.shrinkList f) := hx
    rw [hcontent] at hx'
    exact (hlive f).mpr (h.parent hx')
  · exact hdel ▸ h.once
  · intro x hx
    rw [hdel]
    exact h.fresh (hnext ▸ hx)

theorem Inv.regroup {p q : Place} {lost : List ExecId} (h : Inv U m) (hpq : p ≠ q)
    (hrest : ∀ r, r ≠ p → r ≠ q → m'.content r = m.content r)
    (hperm : (m'.content p ++ m'.content q ++ lost).Perm (m.content p ++ m.content q))
    (hparent : ∀ f, p = .shrinkList f ∨ q = .shrinkList f → (m'.exec f).shrinkList ≠ [] → m.Live f)
    (hnext : m'.nextExec = m.nextExec) (hdel : m'.deletions = m.deletions) :
    Inv (fun x => U x ∧ x ∉ lost) m' := by
  have hlive : ∀ x, m'.Live x ↔ m.Live x := fun x => by unfold Live; rw [hnext, hdel]
  constructor
  · exact h.placed.regroup hpq hrest hperm
  · exact fun hx => (hlive _).mpr (h.live hx.1)
  · intro f x hx
    apply (hlive f).mpr
    by_cases hf : p = .shrinkList f ∨ q = .shrinkList f
    · exact hparent f hf (ne_nil_of_mem hx)
    · obtain ⟨hp, hq⟩ := not_or.mp hf
      have hx' : x ∈ m'.content (.shrinkList f) := hx
      rw [hrest _ (Ne.symm hp) (Ne.symm hq)] at hx'
      exact h.parent hx'
  · exact hdel ▸ h.once
  · intro x hx
    rw [hdel]
    exact h.fresh (hnext ▸ hx)

/-! ## Reclamation -/

/-- A queue takes what there is room for, and the rest is lost. -/
theorem foldl_submitGcTask : ∀ (es queue : List ExecId), ∃ taken lost,
    es.foldl submitGcTask queue = queue ++ taken ∧ (taken ++ lost).Perm es ∧
      (queue.length + es.length ≤ gcQueueRoom → lost = [])
  | [], queue => ⟨[], [], (append_nil queue).symm, List.Perm.refl _, fun _ => rfl⟩
  | e :: es, queue => by
    by_cases hroom : queue.length < gcQueueRoom
    · obtain ⟨taken, lost, heq, hperm, hlost⟩ := foldl_submitGcTask es (queue ++ [e])
      have hsubmit : submitGcTask queue e = queue ++ [e] := if_pos hroom
      refine ⟨e :: taken, lost, ?_, hperm.cons e, fun hle => hlost ?_⟩
      · rw [foldl_cons, hsubmit, heq, append_assoc]
        rfl
      · rw [length_append]
        simp only [length_cons, length_nil] at hle ⊢
        omega
    · obtain ⟨taken, lost, heq, hperm, -⟩ := foldl_submitGcTask es queue
      have hsubmit : submitGcTask queue e = queue := if_neg hroom
      refine ⟨taken, e :: lost, ?_, ?_, fun hle => ?_⟩
      · rw [foldl_cons, hsubmit, heq]
      · exact perm_middle.trans (hperm.cons e)
      · rw [length_cons] at hle
        omega

/-- `OldCacheClear` moves parked entries to a gc queue. -/
theorem Inv.oldCacheClear (h : Inv U m) (n : Nat) (e : ExecId) :
    ∃ V, Inv V (m.oldCacheClear n e) ∧ (∀ x, V x → U x) ∧
      ((m.gcQueue n).length + (m.exec e).shrinkList.length ≤ gcQueueRoom → ∀ x, U x → V x) := by
  obtain ⟨taken, lost, heq, hperm, hlost⟩ :=
    foldl_submitGcTask (m.exec e).shrinkList (m.gcQueue n)
  have hp : (m.oldCacheClear n e).content (.shrinkList e) = [] := by
    show (update m.exec e _ e).shrinkList = []
    rw [update_self]
  have hq : (m.oldCacheClear n e).content (.gcQueue n) = m.gcQueue n ++ taken := by
    show update m.gcQueue n _ n = _
    rw [update_self, heq]
  have hInv : Inv (fun x => U x ∧ x ∉ lost) (m.oldCacheClear n e) := by
    refine h.regroup (p := .shrinkList e) (q := .gcQueue n) Place.noConfusion ?_ ?_ ?_ rfl rfl
    · -- the other places stay
      intro r hrp hrq
      cases r with
      | shrinkList f =>
        have hf : f ≠ e := fun hf => hrp (hf ▸ rfl)
        exact congrArg Exec.shrinkList (update_of_ne hf _ _)
      | gcQueue k =>
        have hk : k ≠ n := fun hk => hrq (hk ▸ rfl)
        exact update_of_ne hk _ _
      | cache | cache2 | owned => rfl
    · -- the list moves to the end of the queue, but for what finds no room there
      rw [hp, hq, nil_append, append_assoc]
      exact (hperm.append_left _).trans perm_append_comm
    · intro f hf hne
      rcases hf with hf | hf
      · cases hf
        exact absurd hp hne
      · cases hf
  refine ⟨_, hInv, fun x hx => hx.1, fun hroom x hx => ⟨hx, ?_⟩⟩
  rw [hlost hroom]
  exact not_mem_nil

/-- Deleting an executor queues what it shrank, and loses only what the queue has no room for. -/
theorem Inv.deleteExec (h : Inv U m) (n : Nat) (he : m.Live e) (hU : ¬ U e) :
    ∃ V, Inv V (m.deleteExec n e) ∧ (∀ x, V x → U x) ∧
      ((m.gcQueue n).length + (m.exec e).shrinkList.length ≤ gcQueueRoom → ∀ x, U x → V x) := by
  obtain ⟨V, hV, hsub, hroom⟩ := h.oldCacheClear n e
  have hdel : ∀ x, x ≠ e → (m.deleteExec n e).deletions x = m.deletions x := fun x hx =>
    update_of_ne hx _ _
  have hlive : ∀ x, x ≠ e → m.Live x → (m.deleteExec n e).Live x := fun x hx hl =>
    ⟨hl.1, (hdel x hx).trans hl.2⟩
  refine ⟨V, ⟨hV.placed, ?_, ?_, ?_, ?_⟩, hsub, hroom⟩
  · intro x hx
    have hxe : x ≠ e := fun hxe => hU (hxe ▸ hsub x hx)
    exact hlive x hxe (h.live (hsub x hx))
  · intro f x hx
    have hx' : x ∈ (update m.exec e { m.exec e with shrinkList := [] } f).shrinkList := hx
    by_cases hf : f = e
    · subst hf
      rw [update_self] at hx'
      exact absurd hx' not_mem_nil
    · rw [update_of_ne hf] at hx'
      exact hlive f hf (h.parent hx')
  · intro x
    by_cases hx : x = e
    · subst hx
      show update m.deletions x _ x ≤ 1
      have hone : update m.deletions x (m.deletions x + 1) x = 1 := by
        rw [update_self, he.2]
      exact Nat.le_of_eq hone
    · rw [hdel x hx]
      exact h.once x
  · intro x hx
    have hxe : x ≠ e := fun hxe => absurd he.1 (Nat.not_lt.mpr (hxe ▸ hx))
    rw [hdel x hxe]
    exact h.fresh hx

theorem live_deleteExec : (m.deleteExec n e).Live x ↔ m.Live x ∧ x ≠ e := by
  show x < m.nextExec ∧ update m.deletions e (m.deletions e + 1) x = 0 ↔ _
  by_cases hx : x = e
  · subst hx
    rw [update_self]
    exact iff_of_false (fun h => Nat.succ_ne_zero _ h.2) fun h => h.2 rfl
  · rw [update_of_ne hx]
    exact (and_iff_left hx).symm

theorem shrinkList_deleteExec (hf : f ≠ e) :
    ((m.deleteExec n e).exec f).shrinkList = (m.exec f).shrinkList :=
  congrArg Exec.shrinkList (update_of_ne hf _ _)

theorem length_gcQueue_deleteExec :
    ((m.deleteExec n e).gcQueue n).length ≤
      (m.gcQueue n).length + (m.exec e).shrinkList.length := by
  obtain ⟨taken, lost, heq, hperm, -⟩ :=
    foldl_submitGcTask (m.exec e).shrinkList (m.gcQueue n)
  show (update m.gcQueue n _ n).length ≤ _
  have hlen := hperm.length_eq
  rw [length_append] at hlen
  rw [update_self, heq, length_append]
  omega

/-- By induction on the executors: deleting all of them. -/
theorem Inv.deleteAll : ∀ {es : List ExecId} {m : Manager} {U : ExecId → Prop}, Inv U m →
    es.Nodup → (∀ e ∈ es, m.Live e ∧ ¬ U e) →
    ∃ V, Inv V (m.deleteAll es) ∧ (∀ x, V x → U x) ∧
      (∀ x, (m.deleteAll es).Live x ↔ m.Live x ∧ x ∉ es) ∧
      ((m.gcQueue 0).length + (es.flatMap fun e => (m.exec e).shrinkList).length ≤ gcQueueRoom →
        ∀ x, U x → V x)
  | [], m, U, h, _, _ =>
    ⟨U, h, fun _ hx => hx, fun _ => (and_iff_left not_mem_nil).symm, fun _ _ hx => hx⟩
  | e :: es, m, U, h, hnd, hes => by
    obtain ⟨he, hnd⟩ := nodup_cons.mp hnd
    obtain ⟨hlive, hU⟩ := hes e mem_cons_self
    obtain ⟨V, hV, hsub, hroom⟩ := h.deleteExec 0 hlive hU
    -- the others are alive still, and in no place
    have hes' : ∀ f ∈ es, (m.deleteExec 0 e).Live f ∧ ¬ V f := by
      intro f hf
      obtain ⟨hf', hUf⟩ := hes f (mem_cons_of_mem e hf)
      exact ⟨live_deleteExec.mpr ⟨hf', fun hfe => he (hfe ▸ hf)⟩, fun hV' => hUf (hsub f hV')⟩
    obtain ⟨W, hW, hsub', hlive', hroom'⟩ := hV.deleteAll hnd hes'
    have hlists : (es.flatMap fun f => ((m.deleteExec 0 e).exec f).shrinkList) =
        es.flatMap fun f => (m.exec f).shrinkList :=
      flatMap_congr fun f hf => shrinkList_deleteExec fun hfe => he (hfe ▸ hf)
    refine ⟨W, hW, fun x hx => hsub x (hsub' x hx), fun x => ?_, fun hle x hx => ?_⟩
    · show ((m.deleteExec 0 e).deleteAll es).Live x ↔ _
      rw [hlive', live_deleteExec, mem_cons, not_or, and_assoc]
    · rw [flatMap_cons, length_append] at hle
      have hlen := length_gcQueue_deleteExec (m := m) (n := 0) (e := e)
      refine hroom' ?_ x (hroom (by omega) x hx)
      rw [hlists]
      omega

/-! ## Adding -/

/-- A successful `find` reorders `cache2_`. -/
theorem Inv.touch (h : Inv U m) (he : e ∈ m.cache2) : Inv U (m.touch e) := by
  have hcontent : (m.touch e).content = update m.content .cache2 (e :: m.cache2.erase e) := by
    funext p
    cases p <;> rfl
  refine { h with placed := ?_ }
  rw [hcontent]
  exact h.placed.perm (perm_cons_erase he).symm

theorem mem_of_findKey (h : m.findKey key = some e) : e ∈ m.cache2 :=
  mem_of_find?_eq_some h

/-- `cache_` takes the execution in. -/
theorem Inv.addByHash (h : Inv U m) (he : m.Live e) (hU : ¬ U e) :
    Inv (fun x => U x ∨ ((m.addByHash e).2 = true ∧ x = e)) (m.addByHash e).1 := by
  unfold Manager.addByHash
  split
  next hgo =>
    have hcontent : ({ m with cache := ((m.exec e).hashKey, e) :: m.cache } : Manager).content =
        update m.content .cache (e :: m.cache.map Prod.snd) := by
      funext p
      cases p <;> rfl
    refine ⟨?_, fun hx => ?_, h.parent, h.once, h.fresh⟩
    · rw [hcontent]
      exact (h.placed.put hU (List.Perm.refl _)).congr fun x => by simp [or_comm]
    · rcases hx with hx | ⟨-, hx⟩
      · exact h.live hx
      · exact hx ▸ he
  next => exact h.congr fun x => by simp

/-- `ShrinkCache` moves entries from `cache2_` to the list of a live execution. -/
theorem Inv.shrinkCache (h : Inv U m) (num : Nat) (he : m.Live e) :
    Inv U (m.shrinkCache num e) := by
  have hlist : (m.shrinkCache num e).content (.shrinkList e) =
      m.cache2.drop (m.cache2.length - num) ++ (m.exec e).shrinkList := by
    show (update m.exec e _ e).shrinkList = _
    rw [update_self]
  have hInv : Inv (fun x => U x ∧ x ∉ []) (m.shrinkCache num e) := by
    refine h.regroup (p := .cache2) (q := .shrinkList e) Place.noConfusion ?_ ?_ ?_ rfl rfl
    · intro r hrp hrq
      cases r with
      | shrinkList f =>
        have hf : f ≠ e := fun hf => hrq (hf ▸ rfl)
        exact congrArg Exec.shrinkList (update_of_ne hf _ _)
      | cache2 => exact absurd rfl hrp
      | cache | gcQueue _ | owned => rfl
    · show (m.cache2.take _ ++ _ ++ []).Perm (m.cache2 ++ (m.exec e).shrinkList)
      rw [hlist, append_nil, ← append_assoc, take_append_drop]
    · intro f hf _
      rcases hf with hf | hf
      · cases hf
      · cases hf
        exact he
  exact hInv.congr fun x => (and_iff_left not_mem_nil).symm

theorem Inv.makeRoom (h : Inv U m) (he : m.Live e) : Inv U (m.makeRoom e) := by
  unfold Manager.makeRoom
  split
  next => exact h.shrinkCache _ he
  next => exact h

theorem mem_makeRoom_cache2 (h : Inv U m) :
    x ∈ (m.makeRoom e).cache2 ↔ x ∈ m.cache2 ∧ x ∉ m.evicted := by
  have hnd : m.cache2.Nodup := h.placed.nodup .cache2
  unfold Manager.makeRoom evicted
  split
  next =>
    show x ∈ m.cache2.take _ ↔ _
    rw [← take_append_drop (m.cache2.length - cacheShrinkNum) m.cache2] at hnd
    have hdisj := (nodup_append'.mp hnd).2.2
    constructor
    · exact fun hx => ⟨mem_of_mem_take hx, fun hx' => hdisj hx hx'⟩
    · intro ⟨hx, hx'⟩
      rw [← take_append_drop (m.cache2.length - cacheShrinkNum) m.cache2, mem_append] at hx
      exact hx.resolve_right hx'
  next => exact (and_iff_left not_mem_nil).symm

theorem exec_makeRoom (m : Manager) (e x : ExecId) :
    ((m.makeRoom e).exec x).key = (m.exec x).key ∧
      ((m.makeRoom e).exec x).hashKey = (m.exec x).hashKey := by
  unfold Manager.makeRoom
  split
  next =>
    show ((update m.exec e _ x).key = _ ∧ (update m.exec e _ x).hashKey = _)
    by_cases hx : x = e
    · subst hx
      rw [update_self]
      exact ⟨rfl, rfl⟩
    · rw [update_of_ne hx]
      exact ⟨rfl, rfl⟩
  next => exact ⟨rfl, rfl⟩

theorem shrinkList_makeRoom (hnil : (m.exec e).shrinkList = []) :
    ((m.makeRoom e).exec e).shrinkList = m.evicted := by
  unfold Manager.makeRoom evicted
  split
  next =>
    show (update m.exec e _ e).shrinkList = _
    rw [update_self]
    show m.cache2.drop _ ++ (m.exec e).shrinkList = _
    rw [hnil, append_nil]
  next => exact hnil

/-- `cache2_` takes the execution in. -/
theorem Inv.addByKey (h : Inv U m) (he : m.Live e) (hU : (m.addByKey e).2 = true → ¬ U e) :
    Inv (fun x => U x ∨ ((m.addByKey e).2 = true ∧ x = e)) (m.addByKey e).1 := by
  unfold Manager.addByKey at hU ⊢
  split
  next => exact h.congr fun x => by simp
  next hkey =>
    rw [if_neg hkey] at hU
    split
    next hnone =>
      rw [hnone] at hU
      have hcontent : ({ m with cache2 := e :: m.cache2 } : Manager).content =
          update m.content .cache2 (e :: m.cache2) := by
        funext p
        cases p <;> rfl
      refine ⟨?_, fun hx => ?_, h.parent, h.once, h.fresh⟩
      · rw [hcontent]
        exact (h.placed.put (hU rfl) (List.Perm.refl _)).congr fun x => by simp [or_comm]
      · rcases hx with hx | ⟨-, hx⟩
        · exact h.live hx
        · exact hx ▸ he
    next other hsome => exact (h.touch (mem_of_findKey hsome)).congr fun x => by simp

/-- The execution goes into `cache2_` if no entry there has its key. -/
theorem addByKey_eq_true : (m.addByKey e).2 = true ↔
    (m.exec e).key ≠ [] ∧ ∀ x ∈ m.cache2, (m.exec x).key ≠ (m.exec e).key := by
  have hnone : m.findKey (m.exec e).key = none ↔
      ∀ x ∈ m.cache2, (m.exec e).key ≠ [] → (m.exec x).key ≠ (m.exec e).key := by
    unfold findKey
    rw [find?_eq_none]
    simp
  unfold Manager.addByKey
  split
  next hkey => simp [hkey]
  next hkey =>
    split
    next h => exact iff_of_true rfl ⟨hkey, fun x hx => hnone.mp h x hx hkey⟩
    next other h =>
      refine iff_of_false Bool.false_ne_true fun hall => ?_
      have := hnone.mpr fun x hx _ => hall.2 x hx
      rw [this] at h
      cases h

theorem addByHash_eq_true : (m.addByHash e).2 = true ↔
    (m.exec e).hashKey ≠ 0 ∧ m.findHash (m.exec e).hashKey = none := by
  unfold Manager.addByHash
  split
  next h => exact iff_of_true rfl h
  next h => exact iff_of_false Bool.false_ne_true h

theorem addByHash_fst (m : Manager) (e : ExecId) :
    (m.addByHash e).1 = { m with cache := (m.addByHash e).1.cache } := by
  unfold Manager.addByHash
  split
  next => rfl
  next => rfl

theorem live_addByHash : (m.addByHash e).1.Live x ↔ m.Live x := by
  rw [addByHash_fst]
  rfl

theorem live_makeRoom : (m.makeRoom e).Live x ↔ m.Live x := by
  unfold Manager.makeRoom
  split
  next => rfl
  next => rfl

theorem addByKey_fst (m : Manager) (e : ExecId) :
    (m.addByKey e).1 = { m with cache2 := (m.addByKey e).1.cache2 } := by
  unfold Manager.addByKey
  split
  next => rfl
  next =>
    split
    next => rfl
    next => rfl

theorem live_addByKey : (m.addByKey e).1.Live x ↔ m.Live x := by
  rw [addByKey_fst]
  rfl

/-- The state behind the three branches of `AddOpExecCache`. -/
def linked (m : Manager) (e : ExecId) : Manager × Bool :=
  (((m.addByHash e).1.makeRoom e).addByKey e)

/-- Adding links the executor into the two maps, or deletes it. -/
theorem addOpExecCache_eq (hvalid : (m.exec e).isOpCacheValid = true)
    (hroom : m.cache.length < m.cacheLimit) :
    m.addOpExecCache e = if (m.addByHash e).2 || (m.linked e).2 then (m.linked e).1
      else (m.linked e).1.deleteExec 0 e := by
  unfold Manager.addOpExecCache
  rw [hvalid, Bool.not_true, if_neg Bool.false_ne_true, if_neg (Nat.not_le.mpr hroom)]
  rfl

theorem shrinkList_linked (hnil : (m.exec e).shrinkList = []) :
    ((m.linked e).1.exec e).shrinkList = m.evicted := by
  have hexec : (m.addByHash e).1.exec = m.exec := by rw [addByHash_fst]
  have hevicted : (m.addByHash e).1.evicted = m.evicted := by rw [addByHash_fst]; rfl
  unfold linked
  rw [addByKey_fst]
  show (((m.addByHash e).1.makeRoom e).exec e).shrinkList = _
  rw [shrinkList_makeRoom (by rw [hexec]; exact hnil), hevicted]

theorem gcQueue_linked : (m.linked e).1.gcQueue = m.gcQueue := by
  have hroom : ∀ m' : Manager, (m'.makeRoom e).gcQueue = m'.gcQueue := by
    intro m'
    unfold Manager.makeRoom
    split
    next => rfl
    next => rfl
  unfold linked
  rw [addByKey_fst]
  show ((m.addByHash e).1.makeRoom e).gcQueue = _
  rw [hroom, addByHash_fst]

theorem live_linked : (m.linked e).1.Live x ↔ m.Live x :=
  live_addByKey.trans (live_makeRoom.trans live_addByHash)

/-! ## Completion, the gc thread, removal and clearing -/

theorem shrinkList_setUse (c : Exec) : c.setUse.shrinkList = c.shrinkList := by
  unfold Exec.setUse
  split
  next => rfl
  next => rfl

theorem shrinkList_complete (m : Manager) (e f : ExecId) (launched : Bool) :
    ((m.complete e launched).exec f).shrinkList = ((m.oldCacheClear 0 e).exec f).shrinkList := by
  unfold Manager.complete
  show (update (m.oldCacheClear 0 e).exec e _ f).shrinkList = _
  by_cases hf : f = e
  · subst hf
    rw [update_self, shrinkList_setUse]
    cases launched <;> rfl
  · rw [update_of_ne hf]

/-- The execution that `RemoveOpExecCache` takes out. -/
def removed (m : Manager) (e : ExecId) : Option ExecId :=
  if (m.exec e).hashKey ≠ 0 ∧ m.findHash (m.exec e).hashKey ≠ none then
    m.findHash (m.exec e).hashKey
  else m.findKey (m.exec e).key

/-- The executor found under a hash is the one that is erased. -/
theorem eraseP_lookup : ∀ {cache : List (Nat × ExecId)} {hash : Nat},
    cache.lookup hash = some e →
    (cache.map Prod.snd).Perm (e :: (cache.eraseP (·.1 == hash)).map Prod.snd)
  | (k, f) :: cache, hash, h => by
    by_cases hk : k = hash
    · subst hk
      rw [lookup_cons_self] at h
      have hrest : ((k, f) :: cache).eraseP (·.1 == k) = cache :=
        eraseP_cons_of_pos (beq_self_eq_true k)
      rw [hrest, ← some.inj h]
      exact List.Perm.refl _
    · have hne : (hash == k) = false := beq_false_of_ne (Ne.symm hk)
      rw [lookup_cons, hne] at h
      have hrest : ((k, f) :: cache).eraseP (·.1 == hash) = (k, f) :: cache.eraseP (·.1 == hash) :=
        eraseP_cons_of_neg fun hb => hk (beq_iff_eq.mp hb)
      rw [hrest]
      exact ((eraseP_lookup h).cons f).trans (List.Perm.swap e f _)

theorem deleteAll_maps (cache : List (Nat × ExecId)) (cache2 : List ExecId) :
    ∀ (es : List ExecId) (m : Manager), { m with cache := cache, cache2 := cache2 }.deleteAll es =
      { m.deleteAll es with cache := cache, cache2 := cache2 }
  | [], _ => rfl
  | e :: es, m => deleteAll_maps cache cache2 es (m.deleteExec 0 e)

/-- `ClearCacheManually` takes both maps down and deletes what was in them. -/
theorem clearCacheManually_eq (m : Manager) : m.clearCacheManually =
    { ({ m with cache := [], cache2 := [] } : Manager).deleteAll
        (m.cache.map Prod.snd ++ m.cache2) with cacheHasFull := false } := by
  have hcache2 : (m.deleteAll (m.cache.map Prod.snd)).cache2 = m.cache2 := by
    have hsame := congrArg cache2 (deleteAll_maps m.cache m.cache2 (m.cache.map Prod.snd) m)
    exact hsame
  have hfold : ∀ m' : Manager, m'.deleteAll (m.cache.map Prod.snd ++ m.cache2) =
      (m'.deleteAll (m.cache.map Prod.snd)).deleteAll m.cache2 := fun m' => foldl_append
  rw [deleteAll_maps, hfold]
  unfold clearCacheManually
  show { (({ m.deleteAll (m.cache.map Prod.snd) with cache := [] } : Manager).deleteAll
    (m.deleteAll (m.cache.map Prod.snd)).cache2) with cache2 := [], cacheHasFull := false } = _
  rw [hcache2]
  have hone := deleteAll_maps [] (m.deleteAll (m.cache.map Prod.snd)).cache2 m.cache2
    (m.deleteAll (m.cache.map Prod.snd))
  exact congrArg (fun m' : Manager => { m' with cache2 := [], cacheHasFull := false }) hone

section

variable (h : Inv U m)
include h

/-- `cache2_` takes the execution in exactly if no entry that stays has its key. -/
theorem linked_eq_true (he : m.Live e) (hU : ¬ U e)
    (hroom : m.cache.length < m.cacheLimit) :
    (m.linked e).2 = true ↔ m.GoesByKey (m.exec e).key := by
  have h1 := h.addByHash he hU
  have hcache2 : (m.addByHash e).1.cache2 = m.cache2 := by rw [addByHash_fst]
  have hevicted : (m.addByHash e).1.evicted = m.evicted := by rw [addByHash_fst]; rfl
  have hexec : (m.addByHash e).1.exec = m.exec := by rw [addByHash_fst]
  have hkey : ∀ x, (((m.addByHash e).1.makeRoom e).exec x).key = (m.exec x).key := fun x => by
    rw [(exec_makeRoom _ e x).1, hexec]
  unfold linked GoesByKey
  rw [addByKey_eq_true, hkey, and_iff_right hroom]
  apply and_congr_right
  intro _
  have hmem := fun x => mem_makeRoom_cache2 (e := e) h1 (x := x)
  rw [hcache2, hevicted] at hmem
  constructor
  · intro hall x hx hx'
    rw [← hkey x]
    exact hall x ((hmem x).mpr ⟨hx, hx'⟩)
  · intro hall x hx
    rw [hkey x]
    exact hall x ((hmem x).mp hx).1 ((hmem x).mp hx).2

/-- An executor that is in neither map turns away what was evicted for it. -/
theorem turnedAway_eq (he : m.Live e) (hU : ¬ U e)
    (hvalid : (m.exec e).isOpCacheValid = true) (hroom : m.cache.length < m.cacheLimit)
    (hhash : ¬ (m.addByHash e).2 = true) (hkey : ¬ (m.linked e).2 = true) :
    m.turnedAway (m.exec e).hashKey (m.exec e).key = m.evicted := by
  have hvalid' : (m.exec e).hashKey ≠ 0 ∨ (m.exec e).key ≠ [] := by
    unfold Exec.isOpCacheValid at hvalid
    simpa using hvalid
  refine if_pos ⟨hroom, hvalid', fun hg => hhash ?_, fun hg => hkey ?_⟩
  · exact addByHash_eq_true.mpr hg.2
  · exact (linked_eq_true h he hU hroom).mpr hg

/-- A new execution is added, or it is deleted again. -/
theorem Inv.addOpExecCache (he : m.Live e) (hU : ¬ U e)
    (hnil : (m.exec e).shrinkList = [])
    (hboth : ¬ (m.GoesByHash (m.exec e).hashKey ∧ m.GoesByKey (m.exec e).key)) :
    ∃ V, Inv V (m.addOpExecCache e) ∧
      ((∀ x, m.Live x → x ≠ e → U x) →
        (m.gcQueue 0).length + (m.turnedAway (m.exec e).hashKey (m.exec e).key).length ≤
          gcQueueRoom → ∀ x, (m.addOpExecCache e).Live x → V x) := by
  -- Deleted at once, with nothing parked on it.
  have hdelete : ∀ {m'}, Inv U m' → m'.Live e → (m'.exec e).shrinkList = [] →
      m'.gcQueue = m.gcQueue → (∀ x, m'.Live x → m.Live x) →
      ∃ V, Inv V (m'.deleteExec 0 e) ∧ ((∀ x, m.Live x → x ≠ e → U x) →
        (m.gcQueue 0).length + (m.turnedAway (m.exec e).hashKey (m.exec e).key).length ≤
          gcQueueRoom → ∀ x, (m'.deleteExec 0 e).Live x → V x) := by
    intro m' h' he' hnil' hgc hlive
    obtain ⟨V, hV, -, hroom⟩ := h'.deleteExec 0 he' hU
    refine ⟨V, hV, fun hall hle x hx => ?_⟩
    obtain ⟨hx, hxe⟩ := live_deleteExec.mp hx
    refine hroom ?_ x (hall x (hlive x hx) hxe)
    rw [hnil', hgc, length_nil]
    omega
  by_cases hvalid : (m.exec e).isOpCacheValid = true
  · by_cases hroom : m.cache.length < m.cacheLimit
    · have h1 := (h.addByHash he hU).makeRoom (live_addByHash.mpr he)
      have hgo := linked_eq_true h he hU hroom
      have hhash : (m.addByHash e).2 = true ↔ m.GoesByHash (m.exec e).hashKey :=
        addByHash_eq_true.trans (and_iff_right hroom).symm
      have h2 := h1.addByKey (live_makeRoom.mpr (live_addByHash.mpr he)) fun hkey => by
        rintro (hUe | ⟨hbyHash, -⟩)
        · exact hU hUe
        · exact hboth ⟨hhash.mp hbyHash, hgo.mp hkey⟩
      rw [addOpExecCache_eq hvalid hroom]
      split
      next hin =>
        refine ⟨_, h2, fun hall _ x hx => ?_⟩
        by_cases hxe : x = e
        · rcases Bool.or_eq_true_iff.mp hin with hin | hin
          · exact Or.inl (Or.inr ⟨hin, hxe⟩)
          · exact Or.inr ⟨hin, hxe⟩
        · exact Or.inl (Or.inl (hall x (live_linked.mp hx) hxe))
      next hout =>
        obtain ⟨hnot, hnot'⟩ := not_or.mp fun hor => hout (Bool.or_eq_true_iff.mpr hor)
        have h3 : Inv U (m.linked e).1 := h2.congr fun x => by
          show _ ↔ (U x ∨ _) ∨ (m.linked e).2 = true ∧ _
          simp [hnot, hnot']
        obtain ⟨V, hV, -, hfit⟩ := h3.deleteExec 0 (live_linked.mpr he) hU
        refine ⟨V, hV, fun hall hle x hx => ?_⟩
        obtain ⟨hx, hxe⟩ := live_deleteExec.mp hx
        refine hfit ?_ x (hall x (live_linked.mp hx) hxe)
        rw [turnedAway_eq h he hU hvalid hroom hnot hnot'] at hle
        rw [gcQueue_linked, shrinkList_linked hnil]
        exact hle
    · have heq : m.addOpExecCache e = { m with cacheHasFull := true }.deleteExec 0 e := by
        unfold Manager.addOpExecCache
        rw [hvalid, Bool.not_true, if_neg Bool.false_ne_true, if_pos (Nat.not_lt.mp hroom)]
      rw [heq]
      exact hdelete (h.frame rfl rfl rfl) he hnil rfl fun _ hx => hx
  · have heq : m.addOpExecCache e = m.deleteExec 0 e := by
      unfold Manager.addOpExecCache
      rw [Bool.not_eq_true] at hvalid
      rw [hvalid, Bool.not_false, if_pos rfl]
    rw [heq]
    exact hdelete h he hnil rfl fun _ hx => hx

/-- `new OpExecCache`: it is nowhere yet. -/
theorem Inv.newExec (hash : Nat) (key : List Byte) (name : String) :
    Inv U (m.newExec hash key name) := by
  have hnil : (m.exec m.nextExec).shrinkList = [] := by
    apply eq_nil_iff_forall_not_mem.mpr
    exact fun x hx => absurd (h.parent hx).1 (Nat.lt_irrefl _)
  have hlist : ∀ f, ((m.newExec hash key name).exec f).shrinkList = (m.exec f).shrinkList := by
    intro f
    show (update m.exec m.nextExec _ f).shrinkList = _
    by_cases hf : f = m.nextExec
    · subst hf
      rw [update_self, hnil]
    · rw [update_of_ne hf]
  have hcontent : (m.newExec hash key name).content = m.content := by
    funext p
    cases p with
    | shrinkList f => exact hlist f
    | cache | cache2 | gcQueue _ | owned => rfl
  refine ⟨hcontent ▸ h.placed, fun hx => ?_, fun {f x} hx => ?_, h.once, fun hx => ?_⟩
  · exact ⟨Nat.lt_succ_of_lt (h.live hx).1, (h.live hx).2⟩
  · rw [hlist f] at hx
    exact ⟨Nat.lt_succ_of_lt (h.parent hx).1, (h.parent hx).2⟩
  · exact h.fresh (Nat.le_of_succ_le hx)

theorem goesByKey_newExec {hash : Nat} :
    (m.newExec hash key name).GoesByKey key ↔ m.GoesByKey key := by
  have hother : ∀ x ∈ m.cache2, (m.newExec hash key name).exec x = m.exec x := fun x hx =>
    update_of_ne (Nat.ne_of_lt (h.live (h.placed.known (p := .cache2) hx)).1) _ _
  refine and_congr_right fun _ => and_congr_right fun _ => ?_
  constructor
  · exact fun hall x hx => hother x hx ▸ hall x hx
  · exact fun hall x hx => (hother x hx).symm ▸ hall x hx

theorem turnedAway_newExec {hash : Nat} :
    (m.newExec hash key name).turnedAway hash key = m.turnedAway hash key := by
  unfold turnedAway
  simp only [goesByKey_newExec h]
  rfl

theorem Inv.complete (e : ExecId) (launched : Bool) :
    ∃ V, Inv V (m.complete e launched) ∧
      ((m.gcQueue 0).length + (m.exec e).shrinkList.length ≤ gcQueueRoom → ∀ x, U x → V x) := by
  obtain ⟨V, hV, -, hroom⟩ := h.oldCacheClear 0 e
  refine ⟨V, hV.frame ?_ rfl rfl, hroom⟩
  funext p
  cases p with
  | shrinkList f => exact shrinkList_complete m e f launched
  | cache | cache2 | gcQueue _ | owned => rfl

/-- A task of the collector keeps the invariant, and loses no executor while its queue has room. -/
theorem Inv.gcTask (n : Nat) :
    ∃ V, Inv V (m.gcTask n) ∧
      ((m.gcQueue (n + 1)).length + (m.submits (.gc n) (n + 1)).length ≤ gcQueueRoom →
        (∀ x, m.Live x → U x) → ∀ x, (m.gcTask n).Live x → V x) := by
  have hsubmits : m.submits (.gc n) (n + 1) =
      (m.gcQueue n).head?.elim [] fun e => (m.exec e).shrinkList := if_pos rfl
  unfold Manager.gcTask
  rw [hsubmits]
  cases hq : m.gcQueue n with
  | nil => exact ⟨U, h, fun _ hall => hall⟩
  | cons e rest =>
    have hcontent : ({ m with gcQueue := update m.gcQueue n rest } : Manager).content =
        update m.content (.gcQueue n) rest := by
      funext p
      cases p with
      | gcQueue k =>
        by_cases hk : k = n
        · subst hk
          show update m.gcQueue k rest k = _
          rw [update_self, update_self]
        · have hpk : Place.gcQueue k ≠ .gcQueue n := fun hp => hk (Place.gcQueue.inj hp)
          show update m.gcQueue n rest k = _
          rw [update_of_ne hk, update_of_ne hpk]
          rfl
      | cache | cache2 | shrinkList _ | owned => rfl
    have hmem : e ∈ m.content (.gcQueue n) := by
      show e ∈ m.gcQueue n
      rw [hq]
      exact mem_cons_self
    -- Between the pop and the delete the executor is in no place and still alive.
    have hInv : Inv (fun x => x ≠ e ∧ U x)
        { m with gcQueue := update m.gcQueue n rest } := by
      refine ⟨?_, fun hx => h.live hx.2, h.parent, h.once, h.fresh⟩
      rw [hcontent]
      exact h.placed.remove (List.Perm.of_eq hq)
    have hnext : update m.gcQueue n rest (n + 1) = m.gcQueue (n + 1) :=
      update_of_ne (Nat.succ_ne_self n) _ _
    obtain ⟨V, hV, -, hroom⟩ :=
      hInv.deleteExec (n + 1) (h.live (h.placed.known hmem)) fun hU => hU.1 rfl
    refine ⟨V, hV, fun hle hall x hx => ?_⟩
    obtain ⟨hx, hxe⟩ := live_deleteExec.mp hx
    refine hroom ?_ x ⟨hxe, hall x hx⟩
    show (update m.gcQueue n rest (n + 1)).length + _ ≤ _
    rw [hnext]
    exact hle

/-- An executor that is taken out of the maps becomes its caller's. -/
theorem Inv.remove (hown : m.removed e = some e ∨ m.removed e = none ∧ e ∈ m.owned) :
    Inv U { m.removeOpExecCache e with
      owned := if e ∈ m.owned then m.owned else e :: m.owned } := by
  -- Whichever cache it is found in, it moves from there to the caller.
  have hput : ∀ {p : Place} {xs}, (m.content p).Perm (e :: xs) → p ≠ .owned →
      ∀ {m' : Manager}, m'.content = update (update m.content p xs) .owned (e :: m.owned) →
      m'.nextExec = m.nextExec → m'.deletions = m.deletions → m'.exec = m.exec → Inv U m' := by
    intro p xs hp hpo m' hcontent hnext hdel hexec
    have hlive : ∀ x, m'.Live x ↔ m.Live x := fun x => by unfold Live; rw [hnext, hdel]
    refine ⟨hcontent ▸ h.placed.move hpo hp (List.Perm.refl _), fun hx => (hlive _).mpr (h.live hx),
      fun hx => (hlive _).mpr (h.parent (hexec ▸ hx)), hdel ▸ h.once, fun hx => ?_⟩
    rw [hdel]
    exact h.fresh (hnext ▸ hx)
  unfold removed at hown
  unfold Manager.removeOpExecCache
  split at hown
  next hfound =>
    rw [if_pos hfound]
    obtain hown | ⟨hnone, -⟩ := hown
    · have hperm := eraseP_lookup hown
      have hnot : e ∉ m.owned := fun ho =>
        Place.noConfusion (h.placed.only (p := .owned) (q := .cache) ho
          (hperm.mem_iff.mpr mem_cons_self))
      rw [if_neg hnot]
      refine hput (p := .cache) hperm Place.noConfusion ?_ rfl rfl rfl
      funext p
      cases p <;> rfl
    · exact absurd hnone hfound.2
  next hmissed =>
    rw [if_neg hmissed]
    obtain hown | ⟨hnone, ho⟩ := hown
    · have hmem := mem_of_findKey hown
      have hnot : e ∉ m.owned := fun ho =>
        Place.noConfusion (h.placed.only (p := .owned) (q := .cache2) ho hmem)
      rw [if_neg hnot, hown]
      refine hput (p := .cache2) (perm_cons_erase hmem) Place.noConfusion ?_ rfl rfl rfl
      funext p
      cases p <;> rfl
    -- Found in neither: it is the caller's already, and nothing moves.
    · rw [hnone, if_pos ho]
      exact h

theorem Inv.release (he : e ∈ m.owned) :
    ∃ V, Inv V ({ m with owned := m.owned.erase e }.deleteExec 0 e) ∧
      ((m.gcQueue 0).length + (m.exec e).shrinkList.length ≤ gcQueueRoom →
        (∀ x, m.Live x → U x) →
        ∀ x, ({ m with owned := m.owned.erase e }.deleteExec 0 e).Live x → V x) := by
  have hcontent : ({ m with owned := m.owned.erase e } : Manager).content =
      update m.content .owned (m.owned.erase e) := by
    funext p
    cases p <;> rfl
  have hInv : Inv (fun x => x ≠ e ∧ U x) { m with owned := m.owned.erase e } := by
    refine ⟨?_, fun hx => h.live hx.2, h.parent, h.once, h.fresh⟩
    rw [hcontent]
    exact h.placed.remove (perm_cons_erase he)
  obtain ⟨V, hV, -, hroom⟩ :=
    hInv.deleteExec 0 (h.live (h.placed.known (p := .owned) he)) fun hU => hU.1 rfl
  refine ⟨V, hV, fun hle hall x hx => ?_⟩
  obtain ⟨hx, hxe⟩ := live_deleteExec.mp hx
  exact hroom hle x ⟨hxe, hall x hx⟩

/-- Clearing the maps keeps the invariant, and loses no executor while the queue has room. -/
theorem Inv.clear :
    ∃ V, Inv V m.clearCacheManually ∧
      ((m.gcQueue 0).length + (m.submits .clear 0).length ≤ gcQueueRoom →
        (∀ x, m.Live x → U x) → ∀ x, m.clearCacheManually.Live x → V x) := by
  -- Both caches are emptied first; the executors of both are in no place then.
  have hbare : Inv (fun x => U x ∧ x ∉ m.cache.map Prod.snd ++ m.cache2)
      { m with cache := [], cache2 := [] } := by
    refine h.regroup (p := .cache) (q := .cache2) Place.noConfusion ?_ (List.Perm.refl _) ?_ rfl rfl
    · intro r hp hq
      cases r with
      | cache => exact absurd rfl hp
      | cache2 => exact absurd rfl hq
      | shrinkList _ | gcQueue _ | owned => rfl
    · intro f hf
      rcases hf with hf | hf
      · cases hf
      · cases hf
  have hnd : (m.cache.map Prod.snd ++ m.cache2).Nodup := by
    apply List.Nodup.append (h.placed.nodup .cache) (h.placed.nodup .cache2)
    intro x hx hx'
    exact Place.noConfusion (h.placed.only (p := .cache) (q := .cache2) hx hx')
  have hmem : ∀ e ∈ m.cache.map Prod.snd ++ m.cache2, m.Live e := by
    intro e he
    rcases mem_append.mp he with he | he
    · have he' : e ∈ m.content .cache := he
      exact h.live (h.placed.known he')
    · have he' : e ∈ m.content .cache2 := he
      exact h.live (h.placed.known he')
  obtain ⟨V, hV, -, hlive, hroom⟩ :=
    hbare.deleteAll hnd fun e he => ⟨hmem e he, fun hU => hU.2 he⟩
  rw [clearCacheManually_eq]
  refine ⟨V, hV.frame rfl rfl rfl, fun hle hall x hx => ?_⟩
  obtain ⟨hx, hnot⟩ := (hlive x).mp hx
  exact hroom hle x ⟨hall x hx, hnot⟩

end

/-! ## Steps and runs -/

/-- No execution goes into both maps, and `SetRepeatable` finds its execution under its
own hash or key, or has it already. -/
def Tidy (m : Manager) : Step → Prop
  | .add hash key _ => ¬ (m.GoesByHash hash ∧ m.GoesByKey key)
  | .remove e => m.removed e = some e ∨ m.removed e = none ∧ e ∈ m.owned
  | _ => True

/-- The gc queues have room for what the step submits. -/
def HasRoom (m : Manager) (a : Step) : Prop :=
  ∀ n, (m.gcQueue n).length + (m.submits a n).length ≤ gcQueueRoom

theorem handOut_some {found : Option ExecId} (hs : m.handOut found name = some m') :
    ∃ wraps, m' = { m with wraps := wraps } ∧ (wraps = m.wraps ∨
      ∃ x, found = some x ∧ m.deletions x = 0 ∧ wraps = x :: m.wraps) := by
  unfold handOut at hs
  cases found with
  | none => exact ⟨m.wraps, (some.inj hs).symm, Or.inl rfl⟩
  | some x =>
    simp only at hs
    split at hs
    next => exact absurd hs.symm (Option.some_ne_none _)
    next hlive =>
      split at hs
      next =>
        exact ⟨x :: m.wraps, (some.inj hs).symm,
          Or.inr ⟨x, rfl, not_not.mp hlive, rfl⟩⟩
      next => exact ⟨m.wraps, (some.inj hs).symm, Or.inl rfl⟩

/-- A hit hands out the executor found, or changes nothing. -/
theorem hit_some (hs : m.step (.hit key name) = some m') :
    m' = m ∨ ∃ e wraps, m.findKey key = some e ∧ m' = { m.touch e with wraps := wraps } ∧
      (wraps = m.wraps ∨ m.deletions e = 0 ∧ wraps = e :: m.wraps) := by
  simp only [Manager.step] at hs
  split at hs
  next => exact Or.inl (some.inj hs).symm
  next e hfound =>
    obtain ⟨wraps, rfl, hwraps⟩ := handOut_some hs
    refine Or.inr ⟨e, wraps, hfound, rfl, ?_⟩
    rcases hwraps with hwraps | ⟨x, hx, hlive, hwraps⟩
    · exact Or.inl hwraps
    · obtain rfl := some.inj hx
      exact Or.inr ⟨hlive, hwraps⟩

theorem guard_some {c : Prop} [Decidable c] (hs : (if c then some m else none) = some m') :
    c ∧ m = m' := by
  obtain ⟨hc, hm⟩ := Option.ite_none_right_eq_some.mp hs
  exact ⟨hc, some.inj hm⟩

/-- Every tidy step keeps the invariant, and loses no executor while the queues have room. -/
theorem Inv.step (h : Inv U m) {a : Step} (htidy : m.Tidy a) (hs : m.step a = some m') :
    ∃ V, Inv V m' ∧ ((∀ x, m.Live x → U x) → m.HasRoom a → ∀ x, m'.Live x → V x) := by
  -- each case is the lemma of its operation
  cases a with
  | hit key name =>
    rcases hit_some hs with rfl | ⟨e, wraps, hfound, rfl, -⟩
    · exact ⟨U, h, fun hall _ => hall⟩
    · exact ⟨U, (h.touch (mem_of_findKey hfound)).frame rfl rfl rfl, fun hall _ => hall⟩
  | hitHash hash name =>
    obtain ⟨wraps, rfl, -⟩ := handOut_some hs
    exact ⟨U, h.frame rfl rfl rfl, fun hall _ => hall⟩
  | add hash key name =>
    obtain rfl := some.inj hs
    have hself : (m.newExec hash key name).exec m.nextExec = ⟨hash, key, name, false, []⟩ :=
      update_self ..
    have hkey : (m.newExec hash key name).GoesByKey key ↔ m.GoesByKey key := goesByKey_newExec h
    have hnew := h.newExec hash key name
    have he : (m.newExec hash key name).Live m.nextExec :=
      ⟨Nat.lt_succ_self _, h.fresh (Nat.le_refl _)⟩
    obtain ⟨V, hV, hroom⟩ := hnew.addOpExecCache he
      (fun hU => absurd (h.live hU).1 (Nat.lt_irrefl _)) (by rw [hself])
      (by rw [hself, hkey]; exact htidy)
    refine ⟨V, hV, fun hall hfit => hroom (fun x hx hxe => hall x ⟨?_, hx.2⟩) ?_⟩
    · exact Nat.lt_of_le_of_ne (Nat.le_of_lt_succ hx.1) hxe
    · rw [hself, turnedAway_newExec h]
      exact hfit 0
  | complete e launched =>
    obtain ⟨-, rfl⟩ := guard_some hs
    obtain ⟨V, hV, hroom⟩ := h.complete e launched
    exact ⟨V, hV, fun hall hfit x hx => hroom (hfit 0) x (hall x hx)⟩
  | gc n =>
    obtain rfl := some.inj hs
    obtain ⟨V, hV, hroom⟩ := h.gcTask n
    exact ⟨V, hV, fun hall hfit => hroom (hfit (n + 1)) hall⟩
  | runWrap e =>
    obtain ⟨-, rfl⟩ := guard_some hs
    exact ⟨U, h.frame rfl rfl rfl, fun hall _ => hall⟩
  | remove e =>
    obtain ⟨-, rfl⟩ := guard_some hs
    refine ⟨U, h.remove htidy, fun hall _ x hx => hall x ?_⟩
    unfold Manager.removeOpExecCache at hx
    split at hx
    next => exact hx
    next =>
      split at hx
      next => exact hx
      next => exact hx
  | release e =>
    obtain ⟨he, rfl⟩ := guard_some hs
    obtain ⟨V, hV, hroom⟩ := h.release he
    exact ⟨V, hV, fun hall hfit => hroom (hfit 0) hall⟩
  | shrink num e =>
    obtain ⟨he, rfl⟩ := guard_some hs
    exact ⟨U, h.shrinkCache num he, fun hall _ => hall⟩
  | clear =>
    obtain rfl := some.inj hs
    obtain ⟨V, hV, hroom⟩ := h.clear
    exact ⟨V, hV, fun hall hfit => hroom (hfit 0) hall⟩

theorem Sound.step (h : m.Sound) {a : Step} (htidy : m.Tidy a) (hfit : m.HasRoom a)
    (hs : m.step a = some m') : m'.Sound := by
  obtain ⟨V, hV, hall⟩ := Inv.step h htidy hs
  exact hV.congr fun x => ⟨hall (fun _ hx => hx) hfit x, hV.live⟩

theorem sound_init (cacheLimit : Nat) : (init cacheLimit).Sound :=
  (inv_init cacheLimit).congr fun x => by simp [Live, init]

theorem gcTask_cons {rest : List ExecId} (hq : m.gcQueue n = e :: rest) :
    (m.gcTask n).gcQueue n = rest ∧ (m.gcTask n).deletions e = m.deletions e + 1 := by
  unfold Manager.gcTask
  rw [hq]
  constructor
  · show update (update m.gcQueue n rest) (n + 1) _ n = rest
    rw [update_of_ne (Nat.ne_of_lt (Nat.lt_succ_self n)), update_self]
  · exact update_self ..

/-- By induction on the place in the queue: the collector deletes the executor after that many
tasks. -/
theorem gc_reaches : ∀ (i : Nat) {m : Manager} {U : ExecId → Prop}, Inv U m →
    (m.gcQueue n)[i]? = some e →
    ∃ m', run step m (List.replicate (i + 1) (.gc n)) = some m' ∧ m'.deletions e = 1
  | i, m, U, h, hi => by
    obtain ⟨V, hV, -⟩ := h.step (a := .gc n) trivial rfl
    cases hq : m.gcQueue n with
    | nil =>
      rw [hq] at hi
      cases hi
    | cons f rest =>
      -- Each run of the task takes one executor off the queue, so `e` comes one place nearer.
      obtain ⟨hrest, hdel⟩ := gcTask_cons hq
      rw [hq] at hi
      cases i with
      | zero =>
        obtain rfl := some.inj hi
        have hone := hV.once f
        refine ⟨m.gcTask n, rfl, ?_⟩
        omega
      | succ i =>
        have hi' : ((m.gcTask n).gcQueue n)[i]? = some e := by
          rw [hrest]
          exact hi
        obtain ⟨m', hrun, hm'⟩ := gc_reaches i hV hi'
        exact ⟨m', run_cons_eq_some.mpr ⟨_, rfl, hrun⟩, hm'⟩

theorem complete_hands_over {launched : Bool} (he : e ∈ (m.exec f).shrinkList)
    (hfit : m.HasRoom (.complete f launched)) (hs : m.step (.complete f launched) = some m') :
    e ∈ m'.gcQueue 0 := by
  obtain ⟨-, rfl⟩ := guard_some hs
  obtain ⟨taken, lost, heq, hperm, hlost⟩ :=
    foldl_submitGcTask (m.exec f).shrinkList (m.gcQueue 0)
  have htaken : e ∈ taken := by
    have hmem := hperm.mem_iff.mpr he
    rw [hlost (hfit 0), append_nil] at hmem
    exact hmem
  show e ∈ update m.gcQueue 0 ((m.exec f).shrinkList.foldl submitGcTask (m.gcQueue 0)) 0
  rw [update_self, heq]
  exact mem_append_right _ htaken

/-- Exactly-once ownership. -/
structure OwnedOnce (m : Manager) : Prop where
  /-- No execution is deleted twice. -/
  once : ∀ e, m.deletions e ≤ 1
  /-- The maps hold no deleted and no removed execution. -/
  reachable : ∀ e, e ∈ m.content .cache ∨ e ∈ m.content .cache2 → m.deletions e = 0 ∧ e ∉ m.owned
  /-- An execution that was added and not deleted has one place. -/
  kept : ∀ e, m.Live e → ∃! p, e ∈ m.content p
  /-- What is parked is parked on an execution that can hand it over... -/
  parked : ∀ f e, e ∈ (m.exec f).shrinkList → m.Live f
  /-- ...and that does so when it completes. -/
  completes : ∀ f e launched m', e ∈ (m.exec f).shrinkList →
    m.HasRoom (.complete f launched) → m.step (.complete f launched) = some m' →
    e ∈ m'.gcQueue 0
  /-- What is on a gc queue is deleted, once, when the gc thread gets to it. -/
  reclaimed : ∀ n i e, (m.gcQueue n)[i]? = some e →
    ∃ m', run Manager.step m (List.replicate (i + 1) (.gc n)) = some m' ∧ m'.deletions e = 1

theorem Sound.ownedOnce (h : m.Sound) : m.OwnedOnce where
  once := h.once
  reachable := by
    intro e he
    have hmem : ∃ p, p ≠ .owned ∧ e ∈ m.content p := by
      rcases he with he | he
      · exact ⟨.cache, Place.noConfusion, he⟩
      · exact ⟨.cache2, Place.noConfusion, he⟩
    obtain ⟨p, hp, he⟩ := hmem
    exact ⟨(h.placed.known he).2, fun ho => hp (h.placed.only (q := .owned) he ho)⟩
  kept := fun e he => h.placed.existsUnique he
  parked := fun _ _ he => h.parent he
  completes := fun _ _ _ _ he hfit hs => complete_hands_over he hfit hs
  reclaimed := fun _ i _ hi => gc_reaches i h hi

/-- Where no execution goes into both maps, `SetRepeatable` finds what it removes, and the
gc queues have room, each execution is owned exactly once in every state of the run. -/
theorem owned_once (cacheLimit : Nat) {steps : List Step}
    (hok : Along step (fun m a => m.Tidy a ∧ m.HasRoom a) (init cacheLimit) steps) :
    Throughout step OwnedOnce (init cacheLimit) steps := by
  have hsound := hok.throughout (I := Sound) (fun _ _ _ h hok hs => h.step hok.1 hok.2 hs) steps
    (sound_init cacheLimit)
  exact hsound.mono fun _ => Sound.ownedOnce

theorem owned_once_evicted : Throughout step OwnedOnce (init 1)
    [.add 0 [1] "aclnnAdd", .complete 0 true, .add 0 [2] "aclnnAdd", .complete 1 true, .gc 0] := by
  apply owned_once
  have hroom : ∀ {m : Manager} {a : Step}, (m.gcQueue 0).length + (m.submits a 0).length ≤ 999 →
      (∀ n, (m.gcQueue (n + 1)).length + (m.submits a (n + 1)).length ≤ 999) → m.HasRoom a :=
    fun h0 h1 n => Nat.casesOn n h0 h1
  refine ⟨⟨fun h => h.1.2.1 rfl, hroom (by decide) fun n => Nat.zero_le _⟩, fun s' hs => ?_⟩
  cases hs
  refine ⟨⟨trivial, hroom (by decide) fun n => Nat.zero_le _⟩, fun s' hs => ?_⟩
  cases hs
  refine ⟨⟨fun h => h.1.2.1 rfl, hroom (by decide) fun n => Nat.zero_le _⟩, fun s' hs => ?_⟩
  cases hs
  refine ⟨⟨trivial, hroom (by decide) fun n => Nat.zero_le _⟩, fun s' hs => ?_⟩
  cases hs
  refine ⟨⟨trivial, hroom (by decide) fun n => ?_⟩, fun s' hs => trivial⟩
  cases n with
  | zero => decide
  | succ n => exact Nat.zero_le _

/-- Two ways to a second `delete`: an execution in both maps when the cache is cleared, and
an evicted one that is then made repeatable. -/
theorem deleted_twice :
    (∃ m, run step (init 10000) [.add 7 [1] "aclnnAdd", .clear] = some m ∧ m.deletions 0 = 2) ∧
    (∃ m, run step (init 1) [.add 0 [1] "aclnnAdd", .add 0 [2] "aclnnAdd", .remove 0,
      .complete 1 true, .gc 0, .release 0] = some m ∧ m.deletions 0 = 2) :=
  ⟨⟨_, rfl, rfl⟩, ⟨_, rfl, rfl⟩⟩

end Manager

end OpBase.Cache
