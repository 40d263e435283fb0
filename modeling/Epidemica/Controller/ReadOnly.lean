import Epidemica.Controller.FileModified

/-!
# `Controller.ReadOnly` — when a read-only batch changes nothing

`ReadTransactions` takes the read-only flag from the header alone, and the callback calls every node of
the layer with whatever the tokens parse to. So a write in a read-only batch is executed:

- on layer `0` it is a write like any other, and even one that adds `0` can change layer one, since it is
  counted (`core_batch`);
- on layers `1` and `2` every node executes it by itself. No call changes a version exactly when every
  token is neutral, that is a read, an addition or subtraction of `0` or a multiplication by `1`
  (`below_batch`). That two writes cancel is not enough: between them the version is another one, which the
  monitor is shown and which a `SET` from above can meet.
-/

namespace Epidemica
namespace Controller

open Network Transition

/-- Every node of every layer holds the version it held. -/
def SameVersions (σ τ : Store) : Prop := ∀ x, τ.transaction x = σ.transaction x

/-- After each of its calls, a read-only batch has left the version of every node unchanged. -/
def ReadOnlyUnchanged (filename : List Char) (batch : Transactions) : Prop :=
  batch.readOnly = true → ∀ σ, Reachable system anyStep σ →
    ∀ calls, calls <+: fileModifiedCallback filename batch → SameVersions σ (σ.run calls)

/-- No node below the core layer has its version changed by any of the callback's own calls on it. -/
def BelowUnchanged (filename : List Char) (batch : Transactions) : Prop :=
  ∀ σ, Reachable system anyStep σ → ∀ calls, calls <+: fileModifiedCallback filename batch →
    ∀ x, x ∉ coreNodes → (σ.transaction x).executeAll (select x calls) = σ.transaction x

/-- A transaction that leaves every version alone. -/
def neutral (d : TransactionData) : Bool :=
  match d.type with
  | .sum | .substract => d.value = 0
  | .multiply => d.value = 1
  | .set => false
  | .read | .unkown => true

/-- A read-only batch for layer `0` has no writes; those of a batch for layer `1` or `2` are neutral. -/
def Harmless (batch : Transactions) : Prop :=
  batch.readOnly = true →
    if batch.layer = 0 then ∀ d ∈ batch.transactions, d.type = .read
    else ∀ d ∈ batch.transactions, neutral d = true

/-! ## Neutral transactions -/

section
variable {d : TransactionData}

theorem neutral_of_read (h : d.type = .read) : neutral d = true := by
  rw [neutral, h]

theorem execute_neutral (t : Transaction) (h : neutral d = true) : t.execute d = t := by
  obtain ⟨type, value⟩ := d
  obtain ⟨v⟩ := t
  cases type with
  | sum =>
    obtain rfl : value = 0 := of_decide_eq_true h
    exact congrArg Transaction.mk (Int32.add_zero v)
  | substract =>
    obtain rfl : value = 0 := of_decide_eq_true h
    exact congrArg Transaction.mk (Int32.sub_zero v)
  | multiply =>
    obtain rfl : value = 1 := of_decide_eq_true h
    exact congrArg Transaction.mk (Int32.mul_one v)
  | set => exact absurd h (by simp [neutral])
  | read | unkown => rfl

/-- A transaction that keeps the versions `0` and `1` keeps all. -/
theorem neutral_of_execute (hzero : Transaction.execute ⟨0⟩ d = ⟨0⟩) (hone : Transaction.execute ⟨1⟩ d = ⟨1⟩) :
    neutral d = true := by
  obtain ⟨type, value⟩ := d
  have hzero := congrArg Transaction.version hzero
  have hone := congrArg Transaction.version hone
  cases type with
  | sum =>
    have hvalue : (0 : Int32) + value = 0 := hzero
    exact decide_eq_true (by rwa [Int32.zero_add] at hvalue)
  | substract =>
    have hvalue : (0 : Int32) - value = 0 := hzero
    exact decide_eq_true (by grind)
  | multiply =>
    have hvalue : (1 : Int32) * value = 1 := hone
    exact decide_eq_true (by rwa [Int32.one_mul] at hvalue)
  | set =>
    have hvalue : value = 0 := hzero
    have hvalue' : value = 1 := hone
    exact absurd (hvalue.symm.trans hvalue') (by decide)
  | read | unkown => rfl

theorem executeAll_neutral (t : Transaction) {ts : List TransactionData} (h : ∀ d ∈ ts, neutral d = true) :
    t.executeAll ts = t := by
  induction ts with
  | nil => rfl
  | cons d ts ih =>
    rw [Transaction.executeAll_cons, execute_neutral t (h d List.mem_cons_self),
      ih fun e he => h e (List.mem_cons_of_mem _ he)]

/-- Neutral calls that write nothing on a core node change no version. -/
theorem run_neutral (σ : Store) {calls : List Call} (hneutral : ∀ c ∈ calls, neutral c.2 = true)
    (hcore : ∀ c ∈ calls, ∀ i, c.1 = .core i → c.2.type = .read) : SameVersions σ (σ.run calls) := by
  intro x
  rw [run_transaction σ calls hcore]
  apply executeAll_neutral
  intro d hd
  exact hneutral (x, d) (mem_select.mp hd)

end

/-! ## Layer zero -/

section
variable {σ τ : Store} {d : TransactionData} {calls : List Call}

/-- Stores that differ on layer one at most. -/
def SameBesideLayerOne (σ τ : Store) : Prop :=
  (∀ x, x ∉ layerOneNodes → σ.transaction x = τ.transaction x) ∧ σ.writeCount = τ.writeCount

/-- A write that is the tenth one on all nodes sets all of layer one. -/
theorem write_eq (h : SameBesideLayerOne σ τ) (hnine : ∀ i, σ.writeCount i = 9) :
    σ.write d = τ.write d := by
  obtain ⟨htr, hcount⟩ := h
  -- every core node counts to ten and sends its version down
  have hdue : ∀ i, σ.due i = true := fun i => by simp [Store.due, hnine]
  have hdue' : ∀ i, τ.due i = true := fun i => by simp [Store.due, ← hcount, hnine]
  have htrans : (σ.write d).transaction = (τ.write d).transaction := by
    funext x
    cases x with
    | core i => exact congrArg (Transaction.execute · d) (htr (.core i) (by simp [layerOneNodes]))
    | one j =>
      have habove := htr (.core (above j)) (by simp [layerOneNodes])
      simp only [Store.write, hdue, hdue', if_true, habove]
      rfl
    | two k => exact htr (.two k) (by simp [layerOneNodes])
  have hcounts : (σ.write d).writeCount = (τ.write d).writeCount := by
    funext i
    simp [Store.write, hdue, hdue']
  exact congrArg₂ Store.mk htrans hcounts

/-- What layer one held before does not matter to a batch that writes, if the next write is a tenth one. -/
theorem run_eq (hcore : ∀ c ∈ calls, c.1 ∈ coreNodes) (hwrites : ∃ c ∈ calls, c.2.type ≠ .read)
    (h : SameBesideLayerOne σ τ) (hnine : ∀ i, σ.writeCount i = 9) : σ.run calls = τ.run calls := by
  induction calls with
  | nil => exact absurd hwrites (by simp)
  | cons c calls ih =>
    obtain ⟨x, d⟩ := c
    obtain ⟨i, rfl⟩ : ∃ i, x = .core i := by
      have hx := hcore _ List.mem_cons_self
      simp only [coreNodes, List.mem_cons, List.not_mem_nil, or_false] at hx
      rcases hx with hx | hx | hx
      · exact ⟨.a1, hx⟩
      · exact ⟨.a2, hx⟩
      · exact ⟨.a3, hx⟩
    rw [Store.run_cons, Store.run_cons]
    by_cases hd : d.type = .read
    · -- a read changes nothing, and the write is still to come
      have hskip : ∀ ρ : Store, ρ.executeTransaction (.core i, d) = ρ := by
        intro ρ
        rw [Store.executeTransaction, if_pos hd, ρ.execute_read _ hd]
      rw [hskip, hskip]
      apply ih fun c hc => hcore c (List.mem_cons_of_mem _ hc)
      obtain ⟨c, hc, hcw⟩ := hwrites
      rcases List.mem_cons.mp hc with rfl | hc
      · exact absurd hd hcw
      · exact ⟨c, hc, hcw⟩
    · rw [Store.executeTransaction, Store.executeTransaction, if_neg hd, if_neg hd, write_eq h hnine]

end

theorem core_mem (i : CoreName) : Node.core i ∈ coreNodes := by
  cases i <;> decide

/-- A node is a core node, or of layer one, or of layer two. -/
theorem node_cases (x : Node) : x ∈ coreNodes ∨ x ∈ layerOneNodes ∨ x ∈ layerTwoNodes := by
  cases x with
  | core i => exact Or.inl (core_mem i)
  | one j =>
    refine Or.inr (Or.inl ?_)
    cases j <;> decide
  | two k =>
    refine Or.inr (Or.inr ?_)
    cases k <;> decide

/-- The file of a write batch for `A1`: one write, and `n` more that add nothing. -/
def padded (write : String) (n : Nat) : Label :=
  .modified "A1_Transactions.txt".toList (0, false)
    (some ("b, ".toList ++ write.toList ++ (List.replicate n " w(sum,0)".toList).flatten))

/-- One write before the next tenth one, version `0` everywhere but on layer one, where it is `v`. -/
def nineDone (v : Int32) (σ : Store) : Bool :=
  (coreNodes ++ layerTwoNodes).all (fun x => σ.transaction x = ⟨0⟩) &&
    [.a1, .a2, .a3].all (fun i => σ.writeCount i = 9) && σ.transaction (.one .b1) = ⟨v⟩

theorem nineDone_spec {v : Int32} {σ : Store} (h : nineDone v σ = true) :
    (∀ x, x ∉ layerOneNodes → σ.transaction x = ⟨0⟩) ∧ (∀ i, σ.writeCount i = 9) ∧
      σ.transaction (.one .b1) = ⟨v⟩ := by
  simp only [nineDone, Bool.and_eq_true, List.all_eq_true, decide_eq_true_eq] at h
  obtain ⟨⟨hzero, hnine⟩, hone⟩ := h
  have hindex : ∀ i : CoreName, i ∈ [.a1, .a2, .a3] := by
    intro i
    cases i <;> decide
  refine ⟨fun x hx => hzero x ?_, fun i => hnine i (hindex i), hone⟩
  rcases node_cases x with hcore | hlayer | htwo
  · exact List.mem_append_left _ hcore
  · exact absurd hlayer hx
  · exact List.mem_append_right _ htwo

/-- Two reachable stores, one write before a tenth one, that differ on layer one only. -/
theorem exists_stores : ∃ σ τ, Reachable system anyStep σ ∧ Reachable system anyStep τ ∧
    SameBesideLayerOne σ τ ∧ (∀ i, σ.writeCount i = 9) ∧
    σ.transaction (.one .b1) ≠ τ.transaction (.one .b1) := by
  obtain ⟨σ, -, hσ, hnine⟩ := Reachable.of_exec system anyStep Store.init [padded "w(sum,0)" 8]
    (nineDone 0) rfl (by decide +kernel)
  obtain ⟨τ, -, hτ, hnine'⟩ := Reachable.of_exec system anyStep Store.init
    [padded "w(sum,1)" 9, padded "w(subs,1)" 8] (nineDone 1) rfl (by decide +kernel)
  obtain ⟨hrest, hcount, hone⟩ := nineDone_spec hnine
  obtain ⟨hrest', hcount', hone'⟩ := nineDone_spec hnine'
  refine ⟨σ, τ, hσ, hτ, ⟨?_, ?_⟩, hcount, ?_⟩
  · intro x hx
    rw [hrest x hx, hrest' x hx]
  · funext i
    rw [hcount i, hcount' i]
  · rw [hone, hone']
    decide

theorem mem_onLayer {nodes : List Node} {ts : List TransactionData} {c : Call} :
    c ∈ executeTransactionsOnLayer nodes ts ↔ c.1 ∈ nodes ∧ c.2 ∈ ts := by
  obtain ⟨x, d⟩ := c
  simp only [executeTransactionsOnLayer, List.mem_flatMap, List.mem_map, Prod.mk.injEq]
  constructor
  · rintro ⟨e, he, y, hy, rfl, rfl⟩
    exact ⟨hy, he⟩
  · rintro ⟨hx, hd⟩
    exact ⟨d, hd, x, hx, rfl, rfl⟩

/-- A node is left its version by its own calls in a batch whose transactions are neutral. -/
theorem executeAll_select {nodes : List Node} {ts : List TransactionData} {calls : List Call}
    (hneutral : ∀ d ∈ ts, neutral d = true) (hcalls : calls <+: executeTransactionsOnLayer nodes ts)
    (t : Transaction) (x : Node) : t.executeAll (select x calls) = t := by
  apply executeAll_neutral
  intro d hd
  have hcall : (x, d) ∈ executeTransactionsOnLayer nodes ts := hcalls.subset (mem_select.mp hd)
  exact hneutral d (mem_onLayer.mp hcall).2

/-- Executing a batch on the core nodes changes no version if and only if it has no write. -/
theorem core_batch {ts : List TransactionData} :
    (∀ σ, Reachable system anyStep σ → ∀ calls, calls <+: executeTransactionsOnLayer coreNodes ts →
        SameVersions σ (σ.run calls)) ↔
      ∀ d ∈ ts, d.type = .read := by
  constructor
  · intro hsame
    by_contra hwrite
    obtain ⟨d, hd, hdw⟩ : ∃ d ∈ ts, d.type ≠ .read := by simpa using hwrite
    -- with a write in it the batch takes two stores that differ to the same one
    obtain ⟨σ, τ, hσ, hτ, hbeside, hnine, hne⟩ := exists_stores
    have hrun : σ.run (executeTransactionsOnLayer coreNodes ts) =
        τ.run (executeTransactionsOnLayer coreNodes ts) := by
      refine run_eq (fun c hc => (mem_onLayer.mp hc).1) ?_ hbeside hnine
      exact ⟨(.core .a1, d), mem_onLayer.mpr ⟨by simp [coreNodes], hd⟩, hdw⟩
    apply hne
    calc σ.transaction (.one .b1)
        = (σ.run (executeTransactionsOnLayer coreNodes ts)).transaction (.one .b1) :=
          (hsame σ hσ _ List.prefix_rfl _).symm
      _ = (τ.run (executeTransactionsOnLayer coreNodes ts)).transaction (.one .b1) := by rw [hrun]
      _ = τ.transaction (.one .b1) := hsame τ hτ _ List.prefix_rfl _
  · intro hreads σ _ calls hcalls
    have hread : ∀ c ∈ calls, c.2.type = .read := fun c hc => hreads c.2 (mem_onLayer.mp (hcalls.subset hc)).2
    exact run_neutral σ (fun c hc => neutral_of_read (hread c hc)) fun c hc _ _ => hread c hc

/-! ## Layers one and two -/

/-- Every version below the core layer can be `1`. -/
theorem exists_store_one : ∃ σ, Reachable system anyStep σ ∧
    ∀ x, x ∉ coreNodes → σ.transaction x = ⟨1⟩ := by
  obtain ⟨σ, -, hσ, hone⟩ := Reachable.of_exec system anyStep Store.init
    [padded "w(sum,1)" 9, .broadcast .b2]
    (fun σ => (layerOneNodes ++ layerTwoNodes).all fun x => σ.transaction x = ⟨1⟩) rfl (by decide +kernel)
  refine ⟨σ, hσ, ?_⟩
  intro x hx
  rw [List.all_eq_true] at hone
  rcases node_cases x with hcore | hlayer | htwo
  · exact absurd hcore hx
  · exact of_decide_eq_true (hone x (List.mem_append_left _ hlayer))
  · exact of_decide_eq_true (hone x (List.mem_append_right _ htwo))

section
variable {nodes : List Node} {ts : List TransactionData}

/-- No call of a batch on nodes below the core layer changes the version of its node if and only if all its
    transactions are neutral. -/
theorem below_batch (hnd : nodes.Nodup) (hbelow : ∀ x ∈ nodes, x ∉ coreNodes) (hne : nodes ≠ []) :
    (∀ σ, Reachable system anyStep σ → ∀ calls, calls <+: executeTransactionsOnLayer nodes ts →
        ∀ x, x ∉ coreNodes → (σ.transaction x).executeAll (select x calls) = σ.transaction x) ↔
      ∀ d ∈ ts, neutral d = true := by
  constructor
  · intro hsame d hd
    obtain ⟨x, hx⟩ := List.exists_mem_of_ne_nil nodes hne
    obtain ⟨front, back, rfl⟩ := List.append_of_mem hd
    -- a version that is the same after the calls in front of `d` and after those with `d` is kept by `d`
    have hkept : ∀ σ, Reachable system anyStep σ → (σ.transaction x).execute d = σ.transaction x := by
      intro σ hσ
      have hafter : ∀ ts', ts' <+: front ++ d :: back →
          (σ.transaction x).executeAll ts' = σ.transaction x := by
        rintro ts' ⟨rest, hrest⟩
        have hcalls : executeTransactionsOnLayer nodes ts' <+:
            executeTransactionsOnLayer nodes (front ++ d :: back) := by
          rw [← hrest]
          exact ⟨executeTransactionsOnLayer nodes rest, List.flatMap_append.symm⟩
        have hversion := hsame σ hσ _ hcalls x (hbelow x hx)
        rwa [select_onLayer hnd, if_pos hx] at hversion
      have hfront := hafter front (List.prefix_append _ _)
      have hboth := hafter (front ++ [d]) ⟨back, by simp⟩
      rwa [Transaction.executeAll_append, hfront] at hboth
    obtain ⟨σ, hσ, hone⟩ := exists_store_one
    have hinit := hkept Store.init (Reachable.of_init rfl)
    have hstep := hkept σ hσ
    rw [hone x (hbelow x hx)] at hstep
    exact neutral_of_execute hinit hstep
  · intro hneutral σ _ calls hcalls x _
    exact executeAll_select hneutral hcalls (σ.transaction x) x

/-- Then they change no version at all. -/
theorem below_same (hbelow : ∀ x ∈ nodes, x ∉ coreNodes) (hneutral : ∀ d ∈ ts, neutral d = true) (σ : Store)
    {calls : List Call} (hcalls : calls <+: executeTransactionsOnLayer nodes ts) :
    SameVersions σ (σ.run calls) := by
  have hmem : ∀ c ∈ calls, c.1 ∈ nodes ∧ c.2 ∈ ts := fun c hc => mem_onLayer.mp (hcalls.subset hc)
  refine run_neutral σ (fun c hc => hneutral c.2 (hmem c hc).2) ?_
  -- no call is on a core node
  rintro ⟨y, d⟩ hc i rfl
  exact absurd (core_mem i) (hbelow _ (hmem _ hc).1)

/-- A read-only batch for layer one or two. -/
theorem below_iff (hnd : nodes.Nodup) (hbelow : ∀ x ∈ nodes, x ∉ coreNodes) (hne : nodes ≠ []) :
    ((∀ σ, Reachable system anyStep σ → ∀ calls, calls <+: executeTransactionsOnLayer nodes ts →
        SameVersions σ (σ.run calls)) ∧
      ∀ σ, Reachable system anyStep σ → ∀ calls, calls <+: executeTransactionsOnLayer nodes ts →
        ∀ x, x ∉ coreNodes → (σ.transaction x).executeAll (select x calls) = σ.transaction x) ↔
      ∀ d ∈ ts, neutral d = true := by
  refine ⟨fun h => (below_batch hnd hbelow hne).mp h.2, fun hneutral => ⟨?_, ?_⟩⟩
  · intro σ _ calls hcalls
    exact below_same hbelow hneutral σ hcalls
  · exact (below_batch hnd hbelow hne).mpr hneutral

end

/-! ## Every file -/

/-- A write batch makes no call below the core layer. -/
theorem below_writeBatch (filename : List Char) (batch : Transactions) (h : batch.readOnly = false) :
    BelowUnchanged filename batch := by
  intro σ _ calls hcalls x hx
  have hnone : select x (fileModifiedCallback filename batch) = [] := by
    unfold fileModifiedCallback
    rw [if_pos h]
    split
    · rename_i node htarget
      rw [select_map, if_neg]
      rintro rfl
      apply hx
      -- a write batch is executed on the core node its file is named after
      unfold target at htarget
      split at htarget
      · exact Option.some.inj htarget ▸ by decide
      · split at htarget
        · exact Option.some.inj htarget ▸ by decide
        · split at htarget
          · exact Option.some.inj htarget ▸ by decide
          · exact absurd htarget (by simp)
    · rfl
  have hselect : select x calls = [] := by
    rw [← List.prefix_nil, ← hnone]
    exact hcalls.filterMap _
  rw [hselect]
  rfl

/-- An empty batch makes no call. -/
theorem callback_nil {filename : List Char} {batch : Transactions} (h : batch.transactions = []) :
    fileModifiedCallback filename batch = [] := by
  unfold fileModifiedCallback
  rw [h]
  split
  · split <;> rfl
  · split <;> rfl

theorem harmless_iff (filename : List Char) (batch : Transactions)
    (hlayer : batch.transactions = [] ∨ batch.layer = 0 ∨ batch.layer = 1 ∨ batch.layer = 2) :
    (ReadOnlyUnchanged filename batch ∧ BelowUnchanged filename batch) ↔ Harmless batch := by
  obtain ⟨layer, readOnly, ts⟩ := batch
  cases readOnly with
  | false =>
    refine iff_of_true ⟨fun h => absurd h (by simp), below_writeBatch _ _ rfl⟩ ?_
    intro h
    exact absurd h (by simp)
  | true =>
    simp only [ReadOnlyUnchanged, BelowUnchanged, Harmless, forall_const]
    rcases hlayer with hts | hlayer | hlayer | hlayer
    · -- nothing is called
      have hts : ts = [] := hts
      subst hts
      rw [callback_nil rfl]
      refine iff_of_true ⟨?_, ?_⟩ ?_
      · intro σ _ calls hcalls
        rw [List.prefix_nil.mp hcalls]
        exact fun x => rfl
      · intro σ _ calls hcalls x _
        rw [List.prefix_nil.mp hcalls]
        rfl
      · split <;> simp
    · have hlayer : layer = 0 := hlayer
      subst hlayer
      rw [if_pos rfl]
      refine ⟨fun h => core_batch.mp h.1, fun h => ⟨core_batch.mpr h, ?_⟩⟩
      intro σ _ calls hcalls x _
      exact executeAll_select (fun d hd => neutral_of_read (h d hd)) hcalls (σ.transaction x) x
    · have hlayer : layer = 1 := hlayer
      subst hlayer
      rw [if_neg (by decide)]
      have hnd : layerOneNodes.Nodup := by decide
      exact below_iff hnd (by decide) (by decide)
    · have hlayer : layer = 2 := hlayer
      subst hlayer
      rw [if_neg (by decide)]
      have hnd : layerTwoNodes.Nodup := by decide
      exact below_iff hnd (by decide) (by decide)

/-- For every file name and every content: after each call of a read-only batch every version is unchanged, and
    no version below the core layer is changed by any of the callback's own calls, if and only if the batch is
    not read-only, or it is for layer `0` and has no write, or it is for layer `1` or `2` and each of its
    transactions is neutral. -/
theorem read_only_batches (filename : List Char) (uninit : Int × Bool) (file : Option (List Char)) :
    (ReadOnlyUnchanged filename (readTransactions uninit file) ∧
        BelowUnchanged filename (readTransactions uninit file)) ↔
      Harmless (readTransactions uninit file) := by
  apply harmless_iff
  cases file with
  | none => exact Or.inl rfl
  | some text => exact Or.inr (parseLayer_range _)

/-- Writes that cancel are not harmless: between them the version is another one. -/
example : ¬ Harmless (readTransactions (0, false) (some "b1, w(sum,5) w(subs,5)".toList)) := by
  unfold Harmless
  decide

/-- `b1, w(sum,5)` is read-only, and adds `5` on every node of layer one. -/
theorem read_only_batches_fail :
    ∃ filename uninit text, (readTransactions uninit (some text)).readOnly = true ∧
      ¬ ReadOnlyUnchanged filename (readTransactions uninit (some text)) ∧
      ¬ BelowUnchanged filename (readTransactions uninit (some text)) := by
  refine ⟨"A1_Transactions.txt".toList, (0, false), "b1, w(sum,5)".toList, by decide, ?_, ?_⟩
  · intro h
    have hone := h (by decide) Store.init (Reachable.of_init rfl) _ List.prefix_rfl (.one .b1)
    exact absurd hone (by decide)
  · intro h
    have hone := h Store.init (Reachable.of_init rfl) _ List.prefix_rfl (.one .b1) (by decide)
    exact absurd hone (by decide)

end Controller
end Epidemica
