import OpBase.Indv.Registry

/-!
# What the registry finds

`Inv` goes along with the calls that were made. Each entry stands in the bucket of its op type,
the buckets are sorted, so that a search does not stop too early, and each entry `Serves` the
kernels that were registered for its op: with every key it finds the first of them that has the
key. A static kernel that is left out has one in front of it, so leaving it out makes no
difference to that.

A call either is refused before there is an entry, or it goes on with one and changes that
alone (`inv_refused`, `inv_changed`).

> `registry_finds`: an entry is found if and only if a call registered the op type, and finds the
> first kernel with a key.
-/

namespace OpBase.Indv.Registry

open List OpBase.Lib
open OpBase.Indv.BinKey (hashBinary normMaxBinBuckets)
open Function (update update_of_ne update_self)

instance : Std.TransCmp strcmp :=
  inferInstanceAs (Std.TransCmp (compareOn (Subtype.val : OpType → List Byte)))

instance : Std.LawfulEqCmp strcmp where
  compare_self := Std.compare_self
  eq_of_compare h := Subtype.ext (Std.LawfulEqOrd.eq_of_compare h)

variable {env : Env}

/-! ## Buckets -/

theorem hashKey_lt (env : Env) (bytes : List Byte) : (hashKey env bytes).toNat < 1024 := by
  unfold hashKey
  rw [UInt64.toNat_mod]
  exact Nat.mod_lt _ (by decide)

/-- The bucket of an op type or a key. -/
def bucketOf (env : Env) (bytes : List Byte) : Bucket :=
  ⟨(hashKey env bytes).toNat, hashKey_lt env bytes⟩

theorem findBinInfo_hash (r : RegInfo) (verbose : List Byte) :
    findBinInfo r (hashKey env verbose) verbose = (r.binTbl (bucketOf env verbose)).find? fun b =>
        b.binInfoKey.len = verbose.length ∧ b.binInfoKey.verbose = verbose :=
  dif_pos (hashKey_lt env verbose)

theorem findRegInfoInTbl_hash (tbl : RegInfoTbl) (opType : OpType) :
    findRegInfoInTbl tbl opType (hashKey env opType.val) =
      findSorted strcmp RegInfo.opType opType (tbl (bucketOf env opType.val)) :=
  dif_pos (hashKey_lt env opType.val)

/-! ## Kernels of an entry -/

/-- An entry finds the first of some kernels for every key. -/
def Serves (env : Env) (r : RegInfo) (bins : List BinInfo) : Prop :=
  ∀ verbose, findBinInfo r (hashKey env verbose) verbose =
    bins.find? fun b => b.binInfoKey.verbose = verbose

theorem newBinInfo_key {info : JsonInfo} {verbose : List Byte} {b : BinInfo}
    (h : newBinInfo env info verbose = some b) :
    b.binInfoKey.verbose = verbose ∧ b.binInfoKey.len = verbose.length ∧
      b.binInfoKey.hashKey = hashKey env verbose := by
  unfold newBinInfo at h
  dsimp only at h
  split at h
  next =>
    obtain ⟨k, hk, rfl⟩ := Option.map_eq_some_iff.mp h
    unfold setOpBinInfoKey at hk
    split at hk
    next =>
      cases hk
      exact ⟨rfl, rfl, rfl⟩
    next => cases hk
  next => cases h

variable {r : RegInfo}

theorem serves_insert {bins : List BinInfo} {info : JsonInfo} {verbose : List Byte}
    {b : BinInfo} (h : Serves env r bins) (hb : newBinInfo env info verbose = some b) :
    Serves env (insertBinInfo r b) (bins ++ [b]) := by
  obtain ⟨hverbose, hlen, hhash⟩ := newBinInfo_key hb
  intro key
  have hold := h key
  rw [findBinInfo_hash] at hold ⊢
  have hinsert : (insertBinInfo r b).binTbl = update r.binTbl (bucketOf env verbose)
      (r.binTbl (bucketOf env verbose) ++ [b]) := by
    unfold insertBinInfo
    simp only [hhash, dif_pos (hashKey_lt env verbose)]
    rfl
  rw [hinsert, find?_append, ← hold]
  by_cases hbucket : bucketOf env key = bucketOf env verbose
  · rw [hbucket, update_self, find?_append]
    congr 1
    rw [find?_singleton, find?_singleton, hverbose, hlen]
    by_cases hkey : verbose = key
    · rw [if_pos (by simp [hkey]), if_pos (by simp [hkey])]
    · rw [if_neg (by simp [hkey]), if_neg (by simp [hkey])]
  · have hkey : verbose ≠ key := fun heq => hbucket (heq ▸ rfl)
    rw [update_of_ne hbucket, find?_singleton, if_neg (by simp [hverbose, hkey]), Option.or_none]

theorem serves_skip {bins : List BinInfo} {info : JsonInfo} {verbose : List Byte}
    (h : Serves env r bins) (hfound : (findBinInfo r (hashKey env verbose) verbose).isSome) :
    Serves env r (bins ++ (newBinInfo env info verbose).toList) := by
  intro key
  rw [find?_append, ← h key]
  cases hb : newBinInfo env info verbose with
  | none => exact (Option.or_none).symm
  | some b =>
    obtain ⟨hverbose, -, -⟩ := newBinInfo_key hb
    rw [Option.toList_some, find?_singleton, hverbose]
    by_cases hkey : verbose = key
    · subst hkey
      obtain ⟨b', hb'⟩ := Option.isSome_iff_exists.mp hfound
      rw [hb']
      rfl
    · rw [if_neg (by simp [hkey]), Option.or_none]

theorem serves_addBinInfo {bins : List BinInfo} (info : JsonInfo)
    (verbose : List Byte) (h : Serves env r bins) :
    Serves env (addBinInfo env r info verbose).2
      (bins ++ (newBinInfo env info verbose).toList) := by
  unfold addBinInfo
  split
  next hstatic => exact serves_skip h hstatic.2
  next =>
    cases hb : newBinInfo env info verbose with
    | none =>
      rw [Option.toList_none, append_nil]
      exact h
    | some b => exact serves_insert h hb

/-! ## A call with its entry -/

/-- The kernel a call registers, if there is one. -/
def Call.bins (env : Env) (call : Call) : List BinInfo :=
  match call.verbose with
  | none => []
  | some verbose => (newBinInfo env call.info verbose).toList

theorem opType_addBinInfo (env : Env) (r : RegInfo) (info : JsonInfo) (verbose : List Byte) :
    (addBinInfo env r info verbose).2.opType = r.opType ∧
      (addBinInfo env r info verbose).2.isActive = r.isActive := by
  unfold addBinInfo
  split
  next => exact ⟨rfl, rfl⟩
  next =>
    split
    next => exact ⟨rfl, rfl⟩
    next =>
      unfold insertBinInfo
      split <;> exact ⟨rfl, rfl⟩

theorem addToRegInfo_spec {call : Call} {x : Bool × RegInfo} (hactive : r.isActive)
    (h : addToRegInfo env r call = some x) :
    x.2.opType = r.opType ∧ x.2.isActive ∧
      ∀ bins, Serves env r bins → Serves env x.2 (bins ++ call.bins env) := by
  unfold addToRegInfo at h
  rw [if_pos hactive] at h
  obtain ⟨verbose, hverbose, rfl⟩ := Option.map_eq_some_iff.mp h
  generalize hr : (if call.info.isStaticShape = true then _ else _ : RegInfo) = r'
  have hsame : r'.opType = r.opType ∧ r'.isActive = r.isActive ∧ r'.binTbl = r.binTbl := by
    rw [← hr]
    split <;> exact ⟨rfl, rfl, rfl⟩
  obtain ⟨hop, hact⟩ := opType_addBinInfo env r' call.info verbose
  refine ⟨hop.trans hsame.1, ?_, fun bins hbins => ?_⟩
  · rw [hact, hsame.2.1]
    exact hactive
  · have hserves : Serves env r' bins := by
      intro key
      rw [← hbins key, findBinInfo_hash, findBinInfo_hash, hsame.2.2]
    unfold Call.bins
    rw [hverbose]
    exact serves_addBinInfo call.info verbose hserves

/-! ## The registered kernels of an op -/

/-- The call has the registry make an entry for the op, unless there is one. -/
def Registers (opType : OpType) (call : Call) : Prop :=
  call.info.opType = opType ∧ call.tiling.isSome

/-- The kernels of an op, from the first call on that has an entry. -/
def registeredBins (env : Env) (history : List Call) (opType : OpType) : List BinInfo :=
  ((history.filter fun c => c.info.opType = opType).dropWhile fun c => c.tiling.isNone).flatMap
    (Call.bins env)

variable {opType : OpType}

theorem registeredBins_other {history : List Call} {call : Call} (h : call.info.opType ≠ opType) :
    registeredBins env (history ++ [call]) opType = registeredBins env history opType := by
  unfold registeredBins
  rw [filter_append, filter_singleton, decide_eq_false h, cond_false, append_nil]

theorem dropWhile_isEmpty_iff {history : List Call} :
    ((history.filter fun c => c.info.opType = opType).dropWhile fun c => c.tiling.isNone).isEmpty ↔
      ¬ ∃ c ∈ history, Registers opType c := by
  rw [List.isEmpty_iff, dropWhile_eq_nil_iff]
  unfold Registers
  simp only [mem_filter, decide_eq_true_eq, Option.isNone_iff_eq_none,
    Option.isSome_iff_ne_none, not_exists, not_and, not_not, and_imp]

theorem registeredBins_again {history : List Call} {call : Call}
    (h : ∃ c ∈ history, Registers call.info.opType c) :
    registeredBins env (history ++ [call]) call.info.opType =
      registeredBins env history call.info.opType ++ call.bins env := by
  unfold registeredBins
  rw [filter_append, filter_singleton, decide_eq_true (rfl : call.info.opType = _),
    cond_true, dropWhile_append, if_neg (fun hempty => dropWhile_isEmpty_iff.mp hempty h),
    flatMap_append, flatMap_singleton]

theorem registeredBins_first {history : List Call} {call : Call}
    (h : ¬ ∃ c ∈ history, Registers call.info.opType c) :
    registeredBins env (history ++ [call]) call.info.opType =
      if call.tiling.isSome then call.bins env else [] := by
  unfold registeredBins
  rw [filter_append, filter_singleton, decide_eq_true (rfl : call.info.opType = _),
    cond_true, dropWhile_append, if_pos (dropWhile_isEmpty_iff.mpr h)]
  cases htiling : call.tiling with
  | none => simp [htiling]
  | some f => simp [htiling]

/-! ## The table -/

/-- Every entry is in its bucket, in order, and finds what was registered. -/
structure Inv (env : Env) (history : List Call) (tbl : RegInfoTbl) : Prop where
  sorted : ∀ b, Sorted strcmp RegInfo.opType (tbl b)
  home : ∀ b, ∀ r ∈ tbl b, bucketOf env r.opType.val = b
  active : ∀ b, ∀ r ∈ tbl b, r.isActive
  entry : ∀ opType, (∃ r ∈ tbl (bucketOf env opType.val), r.opType = opType) ↔
    ∃ c ∈ history, Registers opType c
  serves : ∀ b, ∀ r ∈ tbl b, Serves env r (registeredBins env history r.opType)

variable {tbl tbl' : RegInfoTbl} {call : Call} {history : List Call}

theorem registers_snoc (h : ¬ Registers opType call) :
    (∃ c ∈ history ++ [call], Registers opType c) ↔ ∃ c ∈ history, Registers opType c := by
  simp only [mem_append, mem_singleton]
  exact ⟨fun ⟨c, hc, hr⟩ => ⟨c, hc.resolve_right fun heq => h (heq ▸ hr), hr⟩,
    fun ⟨c, hc, hr⟩ => ⟨c, .inl hc, hr⟩⟩

theorem putRegInfo_eq (tbl : RegInfoTbl) (opType : OpType) (r : RegInfo) :
    putRegInfo tbl (hashKey env opType.val) r = update tbl (bucketOf env opType.val)
        (replaceSorted strcmp RegInfo.opType r (tbl (bucketOf env opType.val))) :=
  dif_pos (hashKey_lt env _)

theorem mem_putRegInfo (hop : r.opType = opType)
    (hentry : ∃ z ∈ tbl (bucketOf env opType.val), z.opType = opType)
    (hhome : ∀ b, ∀ x ∈ tbl b, bucketOf env x.opType.val = b) (b : Bucket) (y : RegInfo) :
    y ∈ putRegInfo tbl (hashKey env opType.val) r b ↔
      y = r ∧ b = bucketOf env opType.val ∨ y ∈ tbl b ∧ y.opType ≠ opType := by
  subst hop
  rw [putRegInfo_eq]
  by_cases hb : b = bucketOf env r.opType.val
  · subst hb
    rw [update_self, mem_replaceSorted hentry, and_iff_left rfl]
  · rw [update_of_ne hb, or_iff_right fun heq => hb heq.2]
    exact ⟨fun hy => ⟨hy, fun heq => hb (heq ▸ (hhome b y hy).symm)⟩, And.left⟩

section

variable (h : Inv env history tbl)
include h

theorem find_eq_none_iff :
    findRegInfoInTbl tbl opType (hashKey env opType.val) = none ↔
      ¬ ∃ c ∈ history, Registers opType c := by
  rw [findRegInfoInTbl_hash, findSorted_eq_none_iff (h.sorted _), ← h.entry opType]
  exact ⟨fun hne ⟨r, hr, hop⟩ => hne r hr hop, fun hnone r hr hop => hnone ⟨r, hr, hop⟩⟩

/-- A lookup finds the record of the type, with the bins registered so far, or adds one. -/
theorem findOrAdd_spec (hfound : findOrAdd env tbl call = some (r, tbl')) :
    r.opType = call.info.opType ∧ r.isActive ∧ (∀ b, Sorted strcmp RegInfo.opType (tbl' b)) ∧
      (∃ z ∈ tbl' (bucketOf env call.info.opType.val), z.opType = call.info.opType) ∧
      (∀ b x, x.opType ≠ call.info.opType → (x ∈ tbl' b ↔ x ∈ tbl b)) ∧
      (∀ b, ∀ x ∈ tbl' b, bucketOf env x.opType.val = b) ∧
      (∃ bins, Serves env r bins ∧
        bins ++ call.bins env = registeredBins env (history ++ [call]) call.info.opType) ∧
      ∃ c ∈ history ++ [call], Registers call.info.opType c := by
  unfold findOrAdd at hfound
  dsimp only at hfound
  split at hfound
  next r' hr' =>
    -- the type has a record
    cases hfound
    have hexists : ∃ c ∈ history, Registers call.info.opType c :=
      not_not.mp fun hnone =>
        Option.some_ne_none r (hr'.symm.trans ((find_eq_none_iff h).mpr hnone))
    rw [findRegInfoInTbl_hash] at hr'
    obtain ⟨hmem, hop⟩ := (findSorted_eq_some_iff (h.sorted _)).mp hr'
    refine ⟨hop, h.active _ r hmem, h.sorted, ⟨r, hmem, hop⟩, fun _ _ _ => Iff.rfl, h.home,
      ⟨_, h.serves _ r hmem, ?_⟩, ?_⟩
    · rw [hop, registeredBins_again hexists]
    · obtain ⟨c, hc, hreg⟩ := hexists
      exact ⟨c, mem_append_left _ hc, hreg⟩
  next hnone =>
    -- a new record goes into its bucket
    have hnew := (find_eq_none_iff h).mp hnone
    unfold addRegInfoToTbl at hfound
    rw [dif_pos (hashKey_lt env _)] at hfound
    obtain ⟨f, hf, heq⟩ := Option.map_eq_some_iff.mp hfound
    cases heq
    have hbucket : (⟨(hashKey env call.info.opType.val).toNat, hashKey_lt env _⟩ : Bucket) =
        bucketOf env call.info.opType.val := rfl
    rw [hbucket]
    have hfresh : ∀ x ∈ tbl (bucketOf env call.info.opType.val), x.opType ≠ call.info.opType :=
      fun x hx hop => hnew ((h.entry _).mp ⟨x, hx, hop⟩)
    refine ⟨rfl, rfl, fun b => ?_, ?_, fun b x hx => ?_, fun b x hx => ?_, ⟨[], fun _ => ?_, ?_⟩,
      call, mem_append_right _ mem_cons_self, rfl, by rw [hf]; rfl⟩
    · by_cases hb : b = bucketOf env call.info.opType.val
      · subst hb
        rw [update_self]
        exact insertSorted_sorted (h.sorted _) hfresh
      · rw [update_of_ne hb]
        exact h.sorted b
    · rw [update_self]
      exact ⟨_, mem_insertSorted.mpr (.inl rfl), rfl⟩
    · by_cases hb : b = bucketOf env call.info.opType.val
      · subst hb
        rw [update_self, mem_insertSorted]
        exact or_iff_right fun heq => hx (heq ▸ rfl)
      · rw [update_of_ne hb]
    · by_cases hb : b = bucketOf env call.info.opType.val
      · subst hb
        rw [update_self, mem_insertSorted] at hx
        rcases hx with rfl | hx
        · rfl
        · exact h.home _ x hx
      · rw [update_of_ne hb] at hx
        exact h.home b x hx
    · rw [findBinInfo_hash]
      rfl
    · rw [registeredBins_first hnew, hf]
      rfl

theorem findOrAdd_eq_none (hnone : findOrAdd env tbl call = none) :
    (¬ ∃ c ∈ history, Registers call.info.opType c) ∧ call.tiling = none := by
  unfold findOrAdd at hnone
  dsimp only at hnone
  split at hnone
  next => cases hnone
  next hfind =>
    unfold addRegInfoToTbl at hnone
    rw [dif_pos (hashKey_lt env _)] at hnone
    exact ⟨(find_eq_none_iff h).mp hfind, Option.map_eq_none_iff.mp hnone⟩

theorem inv_refused (hnone : findOrAdd env tbl call = none) :
    Inv env (history ++ [call]) tbl := by
  obtain ⟨hnew, htiling⟩ := findOrAdd_eq_none h hnone
  have hreg : ∀ opType, ¬ Registers opType call := by
    rintro opType ⟨-, hsome⟩
    rw [htiling] at hsome
    cases hsome
  refine ⟨h.sorted, h.home, h.active,
    fun opType => (h.entry opType).trans (registers_snoc (hreg opType)).symm, fun b r hr => ?_⟩
  have hother : call.info.opType ≠ r.opType := fun heq =>
    hnew (heq ▸ (h.entry r.opType).mp ⟨r, by rw [h.home b r hr]; exact hr, rfl⟩)
  rw [registeredBins_other hother]
  exact h.serves b r hr

/-- Storing the changed record keeps the invariant. -/
theorem inv_changed {x : Bool × RegInfo}
    (hfound : findOrAdd env tbl call = some (r, tbl')) (hx : addToRegInfo env r call = some x) :
    Inv env (history ++ [call])
      (putRegInfo tbl' (hashKey env call.info.opType.val) x.2) := by
  obtain ⟨hop₀, hactive₀, hsorted, hentry, hsame, hhome, ⟨bins, hbins, hregistered⟩, hreg⟩ :=
    findOrAdd_spec h hfound
  obtain ⟨hop, hactive, hserves⟩ := addToRegInfo_spec hactive₀ hx
  rw [hop₀] at hop
  -- only the record of this type changes
  have hmem : ∀ b y, y ∈ putRegInfo tbl' (hashKey env call.info.opType.val) x.2 b ↔
      y = x.2 ∧ b = bucketOf env call.info.opType.val ∨
        y ∈ tbl b ∧ y.opType ≠ call.info.opType := by
    intro b y
    rw [mem_putRegInfo hop hentry hhome]
    exact or_congr_right (and_congr_left fun hne => hsame b y hne)
  constructor
  · intro b
    rw [putRegInfo_eq]
    by_cases hb : b = bucketOf env call.info.opType.val
    · subst hb
      rw [update_self]
      exact replaceSorted_sorted _ (hsorted _)
    · rw [update_of_ne hb]
      exact hsorted b
  · intro b y hy
    rcases (hmem b y).mp hy with ⟨rfl, rfl⟩ | ⟨hy, -⟩
    · rw [hop]
    · exact h.home b y hy
  · intro b y hy
    rcases (hmem b y).mp hy with ⟨rfl, -⟩ | ⟨hy, -⟩
    · exact hactive
    · exact h.active b y hy
  · intro opType
    by_cases heq : opType = call.info.opType
    · subst heq
      exact iff_of_true ⟨x.2, (hmem _ _).mpr (.inl ⟨rfl, rfl⟩), hop⟩ hreg
    · rw [registers_snoc fun hr => heq hr.1.symm, ← h.entry opType]
      constructor
      · rintro ⟨y, hy, rfl⟩
        rcases (hmem _ y).mp hy with ⟨rfl, -⟩ | ⟨hy, -⟩
        · exact absurd hop heq
        · exact ⟨y, hy, rfl⟩
      · rintro ⟨y, hy, rfl⟩
        exact ⟨y, (hmem _ y).mpr (.inr ⟨hy, heq⟩), rfl⟩
  · intro b y hy
    rcases (hmem b y).mp hy with ⟨rfl, -⟩ | ⟨hy, hne⟩
    · rw [hop, ← hregistered]
      exact hserves bins hbins
    · rw [registeredBins_other fun heq => hne heq.symm]
      exact h.serves b y hy

theorem inv_step (hstep : Call.step env tbl call = some tbl') :
    Inv env (history ++ [call]) tbl' := by
  unfold Call.step addRepoInfo at hstep
  split at hstep
  next hnone =>
    cases hstep
    exact inv_refused h hnone
  next r tbl₁ hfound =>
    rw [Option.map_map] at hstep
    obtain ⟨x, hx, rfl⟩ := Option.map_eq_some_iff.mp hstep
    exact inv_changed h hfound hx

theorem inv_run {calls : List Call}
    (hrun : run (Call.step env) tbl calls = some tbl') : Inv env (history ++ calls) tbl' := by
  induction calls generalizing tbl history with
  | nil =>
    cases hrun
    rwa [append_nil]
  | cons call calls ih =>
    obtain ⟨tbl₁, hstep, hrest⟩ := run_cons_eq_some.mp hrun
    have hcalls := ih (inv_step h hstep) hrest
    rwa [append_assoc] at hcalls

end

theorem inv_empty (env : Env) : Inv env [] RegInfoTbl.empty where
  sorted _ := List.Pairwise.nil
  home _ _ hr := absurd hr not_mem_nil
  active _ _ hr := absurd hr not_mem_nil
  entry _ := iff_of_false (fun ⟨_, hr, _⟩ => not_mem_nil hr)
    fun ⟨_, hc, _⟩ => not_mem_nil hc
  serves _ _ hr := absurd hr not_mem_nil

/-! ## Lookups -/

/-- The registry finds what was registered, and nothing else. -/
theorem registry_finds (env : Env) (history : List Call) (tbl : RegInfoTbl)
    (h : run (Call.step env) RegInfoTbl.empty history = some tbl) :
    (∀ b, Sorted strcmp RegInfo.opType (tbl b)) ∧
    (∀ b b' r r', r ∈ tbl b → r' ∈ tbl b' → r.opType = r'.opType → b = b' ∧ r = r') ∧
    (∀ opType, (findRegInfoInTbl tbl opType (hashKey env opType.val)).isSome ↔
      ∃ c ∈ history, Registers opType c) ∧
    ∀ opType r, findRegInfoInTbl tbl opType (hashKey env opType.val) = some r →
      r.opType = opType ∧ ∀ verbose, findBinInfo r (hashKey env verbose) verbose =
        (registeredBins env history opType).find? fun b => b.binInfoKey.verbose = verbose := by
  have hinv := inv_run (inv_empty env) h
  rw [nil_append] at hinv
  refine ⟨hinv.sorted, fun b b' r r' hr hr' hop => ?_, fun opType => ?_, fun opType r hr => ?_⟩
  · obtain rfl : b = b' := by rw [← hinv.home b r hr, ← hinv.home b' r' hr', hop]
    have hfind := (findSorted_eq_some_iff (hinv.sorted b)).mpr ⟨hr, hop⟩
    rw [(findSorted_eq_some_iff (hinv.sorted b)).mpr ⟨hr', rfl⟩] at hfind
    exact ⟨rfl, (Option.some.inj hfind).symm⟩
  · rw [Option.isSome_iff_ne_none, ne_eq, find_eq_none_iff hinv, not_not]
  · rw [findRegInfoInTbl_hash] at hr
    obtain ⟨hmem, rfl⟩ := (findSorted_eq_some_iff (hinv.sorted _)).mp hr
    exact ⟨rfl, hinv.serves _ r hmem⟩

/-- A call for `Add` with the dynamic key `A/0,0/1`. -/
def addCall (path : List Byte) : Call where
  info := ⟨⟨[65, 100, 100], by decide⟩, [], path, [], 0, .kAicore, false, false, .kDynamicInfo, 0,
    0, 0, 0⟩
  key := [65, 47, 48, 44, 48, 47, 49]
  tiling := some 0

/-- Two kernels with one key. -/
theorem registry_finds_two : ∃ tbl,
    run (Call.step ⟨id, fun _ => true⟩) RegInfoTbl.empty [addCall [1], addCall [2]] = some tbl ∧
      (findRegInfoInTbl tbl (addCall []).info.opType
        (hashKey ⟨id, fun _ => true⟩ (addCall []).info.opType.val)).isSome := by
  have hrun : (run (Call.step ⟨id, fun _ => true⟩) RegInfoTbl.empty
      [addCall [1], addCall [2]]).isSome := by decide
  obtain ⟨tbl, htbl⟩ := Option.isSome_iff_exists.mp hrun
  obtain ⟨-, -, hfinds, -⟩ := registry_finds _ _ tbl htbl
  exact ⟨tbl, htbl, (hfinds _).mpr ⟨addCall [1], mem_cons_self, rfl, rfl⟩⟩

end OpBase.Indv.Registry
