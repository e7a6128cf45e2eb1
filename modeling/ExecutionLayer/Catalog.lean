import ExecutionLayer.CandleBackfill
import ExecutionLayer.CoinbaseTasks
import ExecutionLayer.PriceChart
import ExecutionLayer.Resync

/-!
# The catalog

Before it streams, the Coinbase handler fetches the products of the exchange
and the names of its currencies (`_publish_catalog` of `coinbase.py`), and
publishes what can be traded for dollars.  Anything about the products that
does not read as documented costs the whole catalog; anything about the
currencies costs the names.  The first subscription is to the boot symbols
that the catalog has, and it is announced as the universe.

A name is sent as it came, and the publisher's names are texts in this model,
so the handler goes on here only if the names of the listed products are.

What the terminal makes of it is its searchable list, its watch list and the
name over its chart (`catalog_offered`).
-/

namespace ExecutionLayer

open FeedServer Framing JsonLib PyLib StepSystem
open PyLib.PyValue (find isText truthy entries number integer)

namespace Coinbase

open CoinbaseHandler (sortedProducts bootSymbols)

/-! ### Fetching -/

/-- The product is online and trades for dollars. -/
def tradable (p : List (String × PyValue)) : Bool :=
  isText "online" (find p "status") &&
    !((find p "trading_disabled").elim false truthy) &&
    (isText "USD" (find p "quote_currency") ||
      isText "USDC" (find p "quote_currency"))

/-- The id of a row, if the row is listed.  Without an id, and with one that
is no string, the sort or `pid.split` raises. -/
def productId : PyValue → Option (Option String)
  | .dict p =>
      if tradable p then
        match find p "id" with
        | some (.str id) => some (some id)
        | _ => none
      else some none
  | _ => none

/-- The code and the name of a row, if it is named.  Codes that are not
strings are keys that nothing looks up, if they can be keys at all. -/
def currency : PyValue → Option (Option (String × PyValue))
  | .dict c =>
      match find c "name" with
      | none => some none
      | some name =>
          if truthy name then
            match find c "id" with
            | none => none
            | some (.list _) => none
            | some (.dict _) => none
            | some (.str code) => some (some (code, name))
            | some _ => some none
          else some none
  | _ => none

/-- `pid.split("-", 1)[0]` -/
def baseAsset (pid : String) : String :=
  String.ofList (pid.toList.takeWhile (· ≠ '-'))

/-- `names` -/
def productNames (byCode : Finmap fun _ : String => PyValue)
    (ids : List String) : List (String × PyValue) :=
  ids.foldl
    (fun names pid =>
      match byCode.lookup (baseAsset pid) with
      | none => names
      | some name =>
          if truthy name then FeedPublisher.setKey names pid name
          else names)
    []

/-- The bodies of the two responses, unless the request fails. -/
structure CatalogAnswers where
  products : Option (List UInt8)
  currencies : Option (List UInt8)
deriving DecidableEq, Repr

section Fetch

variable (py : Python)

namespace CatalogAnswers

def ids (a : CatalogAnswers) : Option (List String) := do
  let rows ← (a.products.bind py.loads).bind entries
  let out ← rows.mapM productId
  return sortedProducts (out.filterMap id)

/-- `by_code`; names are cosmetic, never fatal. -/
def byCode (a : CatalogAnswers) : Finmap fun _ : String => PyValue :=
  let table := do
    let rows ← (a.currencies.bind py.loads).bind entries
    let out ← rows.mapM currency
    return dictOf (out.filterMap id)
  table.getD ∅

/-- `fetch` -/
def fetch (a : CatalogAnswers) :
    Option (List String × List (String × PyValue)) :=
  (a.ids py).map fun ids => (ids, productNames (a.byCode py) ids)

/-- A row of the response lists the product. -/
def Lists (a : CatalogAnswers) (pid : String) : Prop :=
  ∃ rows p, (a.products.bind py.loads).bind entries = some rows ∧
    .dict p ∈ rows ∧ tradable p ∧ find p "id" = some (.str pid)

/-- The names of the listed products are texts. -/
def NamedByTexts (a : CatalogAnswers) : Prop :=
  ∀ ids names, a.fetch py = some (ids, names) →
    ∀ e ∈ names, e.2.text ≠ none

end CatalogAnswers

variable {py}

/-- A currency without a name is not in the table. -/
theorem currency_truthy
    {row : PyValue} {e : String × PyValue} (h : currency row = some (some e)) :
    truthy e.2 := by
  cases row with
  | dict c =>
      simp only [currency] at h
      split at h
      next =>
        cases h
      next name hname =>
        split_ifs at h with htruthy
        · split at h
          all_goals cases h
          exact htruthy
        · cases h
  | _ =>
      cases h

theorem productId_eq_some_iff {row : PyValue} {pid : String} :
    productId row = some (some pid) ↔
      ∃ p, row = .dict p ∧ tradable p ∧
        find p "id" = some (.str pid) := by
  cases row with
  | dict p =>
      simp only [productId, PyValue.dict.injEq, exists_eq_left']
      split_ifs with htradable
      · split
        next id hid =>
          simp [htradable, hid]
        next hid =>
          refine iff_of_false (by simp) ?_
          rintro ⟨_, hpid⟩
          exact hid pid hpid
      · simp [htradable]
  | _ =>
      simp [productId]

/-- The ids that are fetched are those of the listed products, in order. -/
theorem CatalogAnswers.ids_spec
    {a : CatalogAnswers} {ids : List String} (h : a.ids py = some ids) :
    ids.Pairwise (· ≤ ·) ∧ ∀ pid, pid ∈ ids ↔ a.Lists py pid := by
  rw [CatalogAnswers.ids] at h
  obtain ⟨rows, hrows, h⟩ := Option.bind_eq_some_iff.mp h
  obtain ⟨out, hout, h⟩ := Option.bind_eq_some_iff.mp h
  cases h
  constructor
  · exact List.pairwise_insertionSort _ _
  · intro pid
    rw [sortedProducts, List.mem_insertionSort,
      mem_filterMap_mapM_iff hout]
    constructor
    · rintro ⟨row, hrow, hid⟩
      obtain ⟨p, rfl, htradable, hpid⟩ := productId_eq_some_iff.mp hid
      exact ⟨rows, p, hrows, hrow, htradable, hpid⟩
    · rintro ⟨rows', p, hrows', hrow, htradable, hpid⟩
      obtain rfl := Option.some.inj (hrows.symm.trans hrows')
      exact ⟨_, hrow, productId_eq_some_iff.mpr ⟨p, rfl, htradable, hpid⟩⟩

end Fetch

/-! ### The dictionary of names -/

section Dictionary

variable {β : Type}

theorem dictOf_concat (d : List (String × β)) (e : String × β) :
    dictOf (d ++ [e]) = (dictOf d).insert e.1 e.2 := by
  rw [dictOf, List.foldl_append]
  rfl

theorem mem_of_lookup_dictOf
    {d : List (String × β)} {key : String} {value : β}
    (h : (dictOf d).lookup key = some value) :
    (key, value) ∈ d := by
  induction d using List.reverseRecOn with
  | nil =>
      cases h
  | append_singleton d e ih =>
      rw [dictOf_concat] at h
      by_cases hkey : key = e.1
      · rw [hkey, Finmap.lookup_insert] at h
        rw [hkey, ← Option.some.inj h]
        exact List.mem_append_right _ (List.mem_singleton_self _)
      · rw [Finmap.lookup_insert_of_ne _ hkey] at h
        exact List.mem_append_left _ (ih h)

/-- Replacing the value of a key that is there. -/
theorem lookup_dictOf_replaced
    (d : List (String × β)) (key : String) (value : β) (k : String) :
    (dictOf (d.map fun e => if e.1 = key then (key, value) else e)).lookup
        k =
      if k = key ∧ key ∈ d.map Prod.fst then some value
      else (dictOf d).lookup k := by
  induction d using List.reverseRecOn with
  | nil =>
      simp
  | append_singleton d e ih =>
      rw [List.map_append, List.map_singleton, dictOf_concat,
        dictOf_concat, List.map_append, List.map_singleton]
      by_cases he : e.1 = key
      · rw [if_pos he]
        by_cases hk : k = key
        · subst hk
          rw [Finmap.lookup_insert, if_pos ⟨rfl, by simp [he]⟩]
        · rw [if_neg fun h => hk h.1, Finmap.lookup_insert_of_ne _ hk,
            Finmap.lookup_insert_of_ne _ (by rw [he]; exact hk), ih,
            if_neg fun h => hk h.1]
      · rw [if_neg he]
        by_cases hk : k = e.1
        · rw [if_neg fun h => he (hk.symm.trans h.1), hk,
            Finmap.lookup_insert, Finmap.lookup_insert]
        · rw [Finmap.lookup_insert_of_ne _ hk,
            Finmap.lookup_insert_of_ne _ hk, ih]
          simp only [List.mem_append, List.mem_singleton, Ne.symm he,
            or_false]

/-- An assignment to a dictionary is one to its map. -/
theorem lookup_dictOf_setKey
    (d : List (String × β)) (key : String) (value : β) (k : String) :
    (dictOf (FeedPublisher.setKey d key value)).lookup k =
      if k = key then some value else (dictOf d).lookup k := by
  rw [FeedPublisher.setKey]
  split_ifs with hmem hk hk
  · rw [lookup_dictOf_replaced, if_pos ⟨hk, hmem⟩]
  · rw [lookup_dictOf_replaced, if_neg fun h => hk h.1]
  · rw [dictOf_concat, hk, Finmap.lookup_insert]
  · rw [dictOf_concat, Finmap.lookup_insert_of_ne _ hk]

/-- A map of the values is a map of the dictionary. -/
theorem lookup_dictOf_mapM
    {γ : Type} {f : β → Option γ} {d : List (String × β)}
    {d' : List (String × γ)}
    (h : (d.mapM fun e => (f e.2).map fun v => (e.1, v)) = some d')
    (k : String) :
    (dictOf d').lookup k = ((dictOf d).lookup k).bind f := by
  induction d using List.reverseRecOn generalizing d' with
  | nil =>
      cases h
      rfl
  | append_singleton d e ih =>
      rw [List.mapM_append] at h
      simp only [Option.bind_eq_bind, Option.bind_eq_some_iff,
        List.mapM_cons, List.mapM_nil, Option.pure_def,
        Option.some.injEq, Option.map_eq_some_iff] at h
      obtain ⟨front, hfront, _, ⟨_, ⟨v, hv, rfl⟩, _, rfl, rfl⟩, rfl⟩ := h
      rw [dictOf_concat, dictOf_concat]
      by_cases hk : k = e.1
      · rw [hk, Finmap.lookup_insert, Finmap.lookup_insert,
          Option.bind_some, hv]
      · rw [Finmap.lookup_insert_of_ne _ hk,
          Finmap.lookup_insert_of_ne _ hk, ih hfront]

end Dictionary

theorem byCode_truthy
    {py : Python} {a : CatalogAnswers} {code : String} {name : PyValue}
    (h : (a.byCode py).lookup code = some name) :
    truthy name := by
  rw [CatalogAnswers.byCode] at h
  cases hrows : (a.currencies.bind py.loads).bind entries with
  | none =>
      rw [hrows] at h
      cases h
  | some rows =>
      cases hout : rows.mapM currency with
      | none =>
          simp only [hrows, hout, Option.bind_eq_bind, Option.bind_some,
            Option.bind_none, Option.getD_none] at h
          cases h
      | some out =>
          simp only [hrows, hout, Option.bind_eq_bind, Option.bind_some,
            Option.pure_def, Option.getD_some] at h
          have hmem := mem_of_lookup_dictOf h
          rw [mem_filterMap_mapM_iff hout] at hmem
          obtain ⟨row, _, hrow⟩ := hmem
          exact currency_truthy hrow

/-- A listed product has the name of its base asset. -/
theorem lookup_productNames
    (byCode : Finmap fun _ : String => PyValue) (ids : List String)
    {pid : String} {name : PyValue} (hname : truthy name) :
    (dictOf (productNames byCode ids)).lookup pid = some name ↔
      pid ∈ ids ∧ byCode.lookup (baseAsset pid) = some name := by
  induction ids using List.reverseRecOn with
  | nil =>
      simp [productNames, dictOf]
  | append_singleton ids last ih =>
      have hconcat : productNames byCode (ids ++ [last]) =
          match byCode.lookup (baseAsset last) with
          | none => productNames byCode ids
          | some name =>
              if truthy name then
                FeedPublisher.setKey (productNames byCode ids) last name
              else productNames byCode ids := by
        rw [productNames, List.foldl_append]
        rfl
      have hlast : (dictOf (productNames byCode (ids ++ [last]))).lookup
          pid = some name ↔
            (dictOf (productNames byCode ids)).lookup pid = some name ∨
              pid = last ∧ byCode.lookup (baseAsset last) = some name := by
        rw [hconcat]
        cases hcode : byCode.lookup (baseAsset last) with
        | none =>
            simp
        | some found =>
            simp only [Option.some.injEq]
            split_ifs with htruthy
            · rw [lookup_dictOf_setKey]
              by_cases hpid : pid = last
              · subst hpid
                rw [if_pos rfl, Option.some.injEq]
                refine ⟨fun h => Or.inr ⟨rfl, h⟩, ?_⟩
                rintro (h | ⟨_, h⟩)
                · exact Option.some.inj (hcode.symm.trans (ih.mp h).2)
                · exact h
              · rw [if_neg hpid, or_iff_left fun h => hpid h.1]
            · refine (or_iff_left ?_).symm
              rintro ⟨_, rfl⟩
              exact htruthy hname
      rw [hlast, ih, List.mem_append, List.mem_singleton]
      constructor
      · rintro (⟨hmem, hcode⟩ | ⟨rfl, hcode⟩)
        · exact ⟨Or.inl hmem, hcode⟩
        · exact ⟨Or.inr rfl, hcode⟩
      · rintro ⟨hmem | rfl, hcode⟩
        · exact Or.inl ⟨hmem, hcode⟩
        · exact Or.inr ⟨rfl, hcode⟩

/-! ### Publishing -/

section Publishing

variable (py : Python)

/-- The names that are sent, if they are texts. -/
def textNames (names : List (String × PyValue)) :
    Option (List (String × String)) :=
  names.mapM fun e => e.2.text.map fun name => (e.1, name)

/-- `_publish_catalog`: the product ids it leaves in `_catalog`, none of them
if it fails.  There is nothing behind a name that is no text. -/
def publishCatalog (a : CatalogAnswers) (s : Session) :
    Option (List String × Session) :=
  match a.fetch py with
  | none => some ([], s)
  | some (ids, names) =>
      (textNames names).map fun names =>
        (ids,
          ((FeedPublisher.setProducts ids s).andThen fun _ s =>
            if names = [] then (.ok (), s)
            else FeedPublisher.setNames names s).2)

/-- `_run` up to its first stream: the catalog, and the universe once the
exchange has taken the subscription. -/
def announce (a : CatalogAnswers) (subscribed : List String)
    (s : Session) : Option (Outcome Unit) :=
  (publishCatalog py a s).map fun (catalog, s) =>
    FeedPublisher.setUniverse
      (sortedProducts (bootSymbols catalog subscribed)) s

/-- What it comes to. -/
def announced (a : CatalogAnswers) (subscribed : List String) :
    List Publication :=
  match a.fetch py with
  | none => [.universeSyms (sortedProducts (bootSymbols [] subscribed))]
  | some (ids, names) =>
      let names := (textNames names).getD []
      (if names = [] then [.products ids]
        else [.products ids, .names names]) ++
        [.universeSyms (sortedProducts (bootSymbols ids subscribed))]

variable {py} {a : CatalogAnswers}

theorem exists_textNames_iff (names : List (String × PyValue)) :
    (∃ sent, textNames names = some sent) ↔
      ∀ e ∈ names, e.2.text ≠ none := by
  induction names with
  | nil =>
      simp [textNames]
  | cons e names ih =>
      rw [List.forall_mem_cons, ← ih]
      rw [textNames, List.mapM_cons]
      simp only [Option.bind_eq_bind, Option.bind_eq_some_iff,
        Option.map_eq_some_iff, Option.pure_def, Option.some.injEq]
      constructor
      · rintro ⟨_, _, ⟨name, hname, _⟩, rest, hrest, _⟩
        exact ⟨by simp [hname], rest, hrest⟩
      · rintro ⟨hname, rest, hrest⟩
        obtain ⟨name, hname⟩ := Option.ne_none_iff_exists'.mp hname
        exact ⟨_, _, ⟨name, hname, rfl⟩, rest, hrest, rfl⟩

theorem announce_of_steady
    (htexts : a.NamedByTexts py) (subscribed : List String) {s : Session}
    (hs : Steady s) :
    ∃ s', announce py a subscribed s = some (.ok (), s') ∧
      Delivers s ((announced py a subscribed).flatMap Publication.msgs)
        s' := by
  rw [announce, announced, publishCatalog]
  cases hfetch : a.fetch py with
  | none =>
      obtain ⟨s', huniverse, hdel⟩ := publish_of_steady (.universeSyms _) hs
      exact ⟨s', congrArg some huniverse, hdel⟩
  | some fetched =>
      obtain ⟨ids, names⟩ := fetched
      obtain ⟨sent, hsent⟩ :=
        (exists_textNames_iff names).mpr (htexts ids names hfetch)
      obtain ⟨s₁, hproducts, hdel₁⟩ := publish_of_steady (.products ids) hs
      have hproducts' : FeedPublisher.setProducts ids s = (.ok (), s₁) :=
        hproducts
      simp only [hsent, Option.map_some, Option.getD_some, hproducts',
        Outcome.andThen]
      split_ifs with hnames
      · obtain ⟨s', huniverse, hdel⟩ :=
          publish_of_steady (.universeSyms _) hdel₁.steady
        exact ⟨s', congrArg some huniverse, delivers_trans hdel₁ hdel⟩
      · obtain ⟨s₂, hnames', hdel₂⟩ :=
          publish_of_steady (.names sent) hdel₁.steady
        have hset : FeedPublisher.setNames sent s₁ = (.ok (), s₂) := hnames'
        obtain ⟨s', huniverse, hdel⟩ :=
          publish_of_steady (.universeSyms _) hdel₂.steady
        rw [hset]
        exact ⟨s', congrArg some huniverse,
          delivers_trans hdel₁ (delivers_trans hdel₂ hdel)⟩

/-- The store has the universe, the catalog if there is one, and the names of
its products. -/
theorem store_announced
    (htexts : a.NamedByTexts py) (subscribed : List String)
    {store store' : MarketStore}
    (h : store' = ((announced py a subscribed).flatMap
      Publication.received).foldl applyCall store) :
    store'.universeSyms =
        sortedProducts (bootSymbols ((a.ids py).getD []) subscribed) ∧
      store'.products = (a.ids py).getD store.products ∧
      ∀ ids, a.ids py = some ids → ∀ pid ∈ ids, ∀ name,
        (a.byCode py).lookup (baseAsset pid) = some (.str name) →
        store'.names.lookup pid = some name := by
  subst h
  rw [announced]
  cases hfetch : a.fetch py with
  | none =>
      have hnone : a.ids py = none := by
        rw [CatalogAnswers.fetch] at hfetch
        exact Option.map_eq_none_iff.mp hfetch
      rw [hnone]
      refine ⟨rfl, rfl, ?_⟩
      intro ids hids
      cases hids
  | some fetched =>
      obtain ⟨ids, names⟩ := fetched
      obtain ⟨sent, hsent⟩ :=
        (exists_textNames_iff names).mpr (htexts ids names hfetch)
      obtain ⟨found, hids, heq⟩ := Option.map_eq_some_iff.mp hfetch
      obtain ⟨rfl, rfl⟩ := Prod.mk.inj heq
      have hnames : ∀ pid ∈ found, ∀ name,
          (a.byCode py).lookup (baseAsset pid) = some (.str name) →
          (dictOf sent).lookup pid = some name := by
        intro pid hmem name hcode
        rw [lookup_dictOf_mapM hsent, (lookup_productNames (a.byCode py) found
          (byCode_truthy hcode)).mpr ⟨hmem, hcode⟩]
        rfl
      simp only [hids, hsent, Option.getD_some]
      split_ifs with hempty
      · refine ⟨rfl, rfl, ?_⟩
        rintro _ ⟨⟩ pid hmem name hcode
        have hlookup := hnames pid hmem name hcode
        rw [hempty] at hlookup
        cases hlookup
      · refine ⟨rfl, rfl, ?_⟩
        rintro _ ⟨⟩
        exact hnames

end Publishing

end Coinbase

/-! ### What the terminal makes of it -/

namespace TradingEngine

/-- What the catalog of a view comes from. -/
structure KeepsCatalog (e e' : TradingEngine) : Prop where
  products : e'.store.products = e.store.products
  streaming : e'.store.universeSyms = e.store.universeSyms
  names : e'.store.names = e.store.names
  symbols : e.symbols ⊆ e'.symbols
  due : ∀ now, e.CatalogDue now → e'.CatalogDue now

theorem KeepsCatalog.refl (e : TradingEngine) : KeepsCatalog e e :=
  ⟨rfl, rfl, rfl, List.Subset.refl _, fun _ h => h⟩

theorem KeepsCatalog.trans
    {e₁ e₂ e₃ : TradingEngine} (h : KeepsCatalog e₁ e₂)
    (h' : KeepsCatalog e₂ e₃) :
    KeepsCatalog e₁ e₃ :=
  ⟨h'.products.trans h.products, h'.streaming.trans h.streaming,
    h'.names.trans h.names, fun _ hs => h'.symbols (h.symbols hs),
    fun now hdue => h'.due now (h.due now hdue)⟩

/-- A step of the engine that does not read the catalog. -/
def ReadsNone (a : EngineStep) : Prop :=
  a.Own ∧ ∀ now, a ≠ .refreshCatalog now

theorem catalogDue_step
    (e : TradingEngine) {a : EngineStep} (h : ReadsNone a) {now : Int}
    (hdue : e.CatalogDue now) :
    (e.step a).CatalogDue now := by
  obtain ⟨own, hreads⟩ := h
  cases a with
  | command c =>
      rcases e.process_cases c with
        ⟨_, heq⟩ | ⟨_, heq⟩ | ⟨_, ⟨_, _, heq⟩ | ⟨oms, heq⟩⟩ <;>
      · rw [step, heq]
        exact hdue
  | quote symbol q =>
      exact own.elim
  | feeds store stocks =>
      exact own.elim
  | requestFocusHistory =>
      rw [step, requestFocusHistory]
      split_ifs <;> exact hdue
  | refreshHistory time =>
      rw [step, refreshHistory]
      split_ifs <;> exact hdue
  | refreshCatalog time =>
      exact absurd rfl (hreads time)
  | publish =>
      rw [CatalogDue] at hdue ⊢
      rw [step, publish]
      exact hdue
  | _ =>
      exact hdue

theorem keepsCatalog_step
    (e : TradingEngine) {a : EngineStep} (h : ReadsNone a) :
    KeepsCatalog e (e.step a) := by
  have hsymbols : e.symbols ⊆ (e.step a).symbols :=
    e.subset_watchList_deskStep (.engine a h.1) .crypto
  have hdue : ∀ now, e.CatalogDue now → (e.step a).CatalogDue now :=
    fun _ => e.catalogDue_step h
  rcases e.step_store_cases h.1 with hstore | ⟨c, _, _, hstore⟩ | hstore
  · exact ⟨by rw [hstore], by rw [hstore], by rw [hstore], hsymbols, hdue⟩
  · refine ⟨?_, ?_, ?_, hsymbols, hdue⟩ <;>
    · rw [hstore, MarketStore.addSymbol]
      split_ifs <;> rfl
  · refine ⟨?_, ?_, ?_, hsymbols, hdue⟩ <;>
    · rw [hstore, MarketStore.requestHistory]
      split_ifs <;> rfl

theorem keepsCatalog_run
    (e : TradingEngine) {as : List EngineStep} (h : ∀ a ∈ as, ReadsNone a) :
    KeepsCatalog e (run step e as) := by
  induction as generalizing e with
  | nil =>
      exact .refl e
  | cons a as ih =>
      exact (e.keepsCatalog_step (h a List.mem_cons_self)).trans
        (ih _ fun b hb => h b (List.mem_cons_of_mem a hb))

/-- A cycle that reads the catalog shows it: the products, a row for each
symbol that is watched or streamed, and the name of a crypto focus. -/
theorem catalog_of_cycle
    {e : TradingEngine} {now : Int} (hdue : e.CatalogDue now)
    (pending : List Command) {view : EngineView}
    (hview : view = (e.cycle pending now).view) :
    view.products = e.store.products ∧
      (∀ s, s ∈ e.symbols ∨ s ∈ e.store.universeSyms →
        ∃ row ∈ view.symbols, row.symbol = s ∧ row.assetClass = .crypto) ∧
      (view.CryptoFocus → view.focus ≠ "" →
        view.focusName = e.store.name view.focus) := by
  have hreads : ∀ a ∈ pending.map EngineStep.command ++
      [.readCryptoQuotes, .readStockQuotes, .requestFocusHistory,
        .refreshHistory now, .drainErrors], ReadsNone a := by
    intro a ha
    rcases List.mem_append.mp ha with ha | ha
    · obtain ⟨c, _, rfl⟩ := List.mem_map.mp ha
      exact ⟨trivial, by simp⟩
    · simp only [List.mem_cons, List.not_mem_nil, or_false] at ha
      rcases ha with rfl | rfl | rfl | rfl | rfl <;>
      exact ⟨trivial, by simp⟩
  have hkeeps := e.keepsCatalog_run hreads
  have hcycle : e.cycle pending now =
      ((run step e (pending.map EngineStep.command ++
        [.readCryptoQuotes, .readStockQuotes, .requestFocusHistory,
          .refreshHistory now, .drainErrors])).refreshCatalog
            now).publish := by
    rw [cycle_eq_run, run_append, run_append]
    rfl
  generalize run step e (pending.map EngineStep.command ++
    [.readCryptoQuotes, .readStockQuotes, .requestFocusHistory,
      .refreshHistory now, .drainErrors]) = before at hkeeps hcycle
  obtain ⟨last, hlast, hproducts, hsymbols, hstore⟩ :
      ∃ last, before.refreshCatalog now = last ∧
        last.products = before.store.products ∧
        last.symbols =
          mergeUniverse before.symbols before.store.universeSyms ∧
        last.store = before.store := by
    have hread : before.nextCatalog ≤ now ∨ before.products = [] ∨
        before.universeSeen = false := hkeeps.due now hdue
    refine ⟨_, rfl, ?_⟩
    rw [refreshCatalog, if_pos hread]
    exact ⟨rfl, rfl, rfl⟩
  rw [hcycle, hlast] at hview
  subst hview
  refine ⟨hproducts.trans hkeeps.products, ?_, ?_⟩
  · intro s hs
    have hmem : s ∈ last.symbols := by
      rw [hsymbols, mem_mergeUniverse, hkeeps.streaming]
      exact hs.imp_left fun hold => hkeeps.symbols hold
    exact ⟨last.buildRow .crypto s,
      List.mem_append_left _ (List.mem_map_of_mem hmem),
      (last.buildRow_shows .crypto s).1, last.buildRow_assetClass .crypto s⟩
  · intro hcrypto hfocus
    have hclass : last.isStock last.focus = false :=
      isStock_of_cryptoFocus hcrypto
    have hne : last.focus ≠ "" := hfocus
    change (if last.focus = "" then "" else
      if last.isStock last.focus then last.stocks.name last.focus
      else last.store.name last.focus) = e.store.name last.focus
    rw [if_neg hne, hclass, hstore, MarketStore.name, hkeeps.names]
    rfl

end TradingEngine

namespace Coinbase

open CoinbaseHandler (sortedProducts bootSymbols)
open TradingEngine

/-- **The catalog is offered as it was fetched.**  The feed fetches the
catalog, with any responses in which the names of the listed products are
texts, and announces it; the terminal reads what was written, in chunks cut
anywhere.  The next cycle of its engine that reads the catalog, whatever
commands it handles, shows exactly the products that the response lists, in
order, or the old ones if the fetch failed; every boot symbol that the catalog
has is watched; and over the chart of a listed product stands the name of its
base asset. -/
theorem catalog_offered
    {py : Python} {a : CatalogAnswers} (htexts : a.NamedByTexts py)
    (subscribed : List String)
    {s : Session} (hs : Steady s) (hfresh : s.net.written = [])
    (symbols : List String) (capital : ℚ) (limits : RiskLimits)
    (configured : Bool) (ds : List DeskStep) :
    ∃ s', announce py a subscribed s = some (.ok (), s') ∧
      ∀ (parse : List UInt8 → Option Json) (dumps : Json → List UInt8)
        (chunks : List (List UInt8)),
        (∀ msg ∈ s'.net.written, ReadsBack parse dumps msg) →
        chunks.flatten = join 10 (s'.net.written.map dumps) →
        ∃ store,
          serve parse [] chunks
              (desk symbols capital limits configured ds).store =
            (.ok [], store) ∧
          ∀ pending now view,
            (desk symbols capital limits configured ds).CatalogDue now →
            view = (TradingEngine.cycle
              { desk symbols capital limits configured ds with
                store := store } pending now).view →
            (a.ids py = none → view.products =
              (desk symbols capital limits configured
                ds).store.products) ∧
              (∀ ids, a.ids py = some ids →
                view.products = ids ∧ ids.Pairwise (· ≤ ·) ∧
                  (∀ pid, pid ∈ ids ↔ a.Lists py pid) ∧
                  ∀ name, view.CryptoFocus → view.focus ≠ "" →
                    view.focus ∈ ids →
                    (a.byCode py).lookup (baseAsset view.focus) =
                      some (.str name) →
                    view.focusName = name) ∧
              ∀ sym ∈ subscribed,
                (∀ ids, a.ids py = some ids → ids ≠ [] → sym ∈ ids) →
                ∃ row ∈ view.symbols,
                  row.symbol = sym ∧ row.assetClass = .crypto := by
  obtain ⟨s', hannounce, hdel⟩ := announce_of_steady htexts subscribed hs
  refine ⟨s', hannounce, ?_⟩
  intro parse dumps chunks hread hchunks
  rw [hdel.written, hfresh, List.nil_append] at hread hchunks
  refine ⟨_, serve_allMsgs hread hchunks _, ?_⟩
  intro pending now view hdue hview
  generalize desk symbols capital limits configured ds = e at *
  generalize hstore : ((announced py a subscribed).flatMap
    Publication.received).foldl applyCall e.store = store at hview
  obtain ⟨huniverse, hproducts, hnames⟩ :=
    store_announced htexts subscribed hstore.symm
  have hdue' : TradingEngine.CatalogDue { e with store := store } now :=
    hdue
  obtain ⟨hshown, hrows, hname⟩ := catalog_of_cycle hdue' pending hview
  refine ⟨?_, ?_, ?_⟩
  · intro hids
    rw [hshown, hproducts, hids]
    rfl
  · intro ids hids
    obtain ⟨hsorted, hlists⟩ := CatalogAnswers.ids_spec hids
    refine ⟨?_, hsorted, hlists, ?_⟩
    · rw [hshown, hproducts, hids]
      rfl
    · intro name hcrypto hfocus hmem hcode
      rw [hname hcrypto hfocus, MarketStore.name, FiniteMap.lookupD,
        hnames ids hids view.focus hmem name hcode]
      rfl
  · intro sym hsym hlisted
    refine hrows sym (Or.inr ?_)
    rw [huniverse, sortedProducts, List.mem_insertionSort]
    cases hids : a.ids py with
    | none =>
        exact hsym
    | some ids =>
        rw [Option.getD_some, bootSymbols]
        split_ifs with hempty
        · exact hsym
        · exact List.mem_filter.mpr
            ⟨hsym, decide_eq_true (hlisted ids hids hempty)⟩

/-- A product that trades, and one that does not any more. -/
def productRows : PyValue :=
  .list
    [.dict
        [("id", .str "BTC-USD"), ("status", .str "online"),
          ("quote_currency", .str "USD")],
      .dict
        [("id", .str "OLD-USD"), ("status", .str "delisted"),
          ("quote_currency", .str "USD")]]

def currencyRows : PyValue :=
  .list [.dict [("id", .str "BTC"), ("name", .str "Bitcoin")]]

/-- Two texts parse. -/
def pythonCatalog : Python where
  loads := fun raw =>
    if raw = [1] then some productRows
    else if raw = [2] then some currencyRows
    else none
  float := number
  int := integer
  fromisoformat := fun _ => none

def catalogAnswers : CatalogAnswers where
  products := some [1]
  currencies := some [2]

theorem ids_catalogAnswers :
    catalogAnswers.ids pythonCatalog = some ["BTC-USD"] := by
  decide +kernel

theorem textNames_catalogAnswers :
    (catalogAnswers.fetch pythonCatalog).map (fun f => textNames f.2) =
      some (some [("BTC-USD", "Bitcoin")]) := by
  decide +kernel

theorem namedByTexts_catalogAnswers :
    catalogAnswers.NamedByTexts pythonCatalog := by
  intro ids names hfetch
  have hsent := textNames_catalogAnswers
  rw [hfetch, Option.map_some, Option.some.injEq] at hsent
  exact (exists_textNames_iff names).mp ⟨_, hsent⟩

/-- `{"m":"products","syms":["BTC-USD"]}` -/
def productsText : List UInt8 :=
  [123, 34, 109, 34, 58, 34, 112, 114, 111, 100, 117, 99, 116, 115, 34,
    44, 34, 115, 121, 109, 115, 34, 58, 91, 34, 66, 84, 67, 45, 85, 83,
    68, 34, 93, 125]

/-- `{"m":"names","map":{"BTC-USD":"Bitcoin"}}` -/
def namesText : List UInt8 :=
  [123, 34, 109, 34, 58, 34, 110, 97, 109, 101, 115, 34, 44, 34, 109,
    97, 112, 34, 58, 123, 34, 66, 84, 67, 45, 85, 83, 68, 34, 58, 34,
    66, 105, 116, 99, 111, 105, 110, 34, 125, 125]

/-- `{"m":"universe","syms":["BTC-USD"]}` -/
def universeText : List UInt8 :=
  [123, 34, 109, 34, 58, 34, 117, 110, 105, 118, 101, 114, 115, 101, 34,
    44, 34, 115, 121, 109, 115, 34, 58, 91, 34, 66, 84, 67, 45, 85, 83,
    68, 34, 93, 125]

def dumpCatalog : Json → List UInt8
  | .object (("m", .string "products") :: _) => productsText
  | .object (("m", .string "universe") :: _) => universeText
  | _ => namesText

def parseCatalog (line : List UInt8) : Option Json :=
  if line = productsText then
    some (FeedPublisher.productsMsg ["BTC-USD"])
  else if line = universeText then
    some (FeedPublisher.universeMsg ["BTC-USD"])
  else some (FeedPublisher.namesMsg [("BTC-USD", "Bitcoin")])

/-- One of two boot symbols is in the catalog. -/
theorem catalog_offered_btc :
    ∃ store,
      serve parseCatalog []
          [productsText ++ [10] ++ namesText,
            [10] ++ universeText ++ [10]] (desk [] 100 {} false []).store =
        (.ok [], store) ∧
      ∃ view, view = (TradingEngine.cycle
          { desk [] 100 {} false [] with store := store } [] 0).view ∧
        view.products = ["BTC-USD"] ∧
        ∃ row ∈ view.symbols,
          row.symbol = "BTC-USD" ∧ row.assetClass = .crypto := by
  obtain ⟨s', hannounce, hserve⟩ := catalog_offered
    namedByTexts_catalogAnswers ["OLD-USD", "BTC-USD"]
    (s := { pub := { attached := true } }) ⟨rfl, by simp⟩ rfl [] 100 {}
    false []
  have hids := ids_catalogAnswers
  have hwritten : s'.net.written =
      [FeedPublisher.productsMsg ["BTC-USD"],
        FeedPublisher.namesMsg [("BTC-USD", "Bitcoin")],
        FeedPublisher.universeMsg ["BTC-USD"]] := by
    have hprods : sortedProducts
        (bootSymbols ["BTC-USD"] ["OLD-USD", "BTC-USD"]) =
          ["BTC-USD"] := by
      decide +kernel
    obtain ⟨⟨ids, names⟩, hfetch, hsent⟩ :=
      Option.map_eq_some_iff.mp textNames_catalogAnswers
    obtain ⟨_, hids', heq⟩ := Option.map_eq_some_iff.mp hfetch
    have hfetched : ids = ["BTC-USD"] := by
      rw [← (Prod.mk.inj heq).1]
      exact Option.some.inj (hids'.symm.trans hids)
    subst hfetched
    simp only [announce, publishCatalog, hfetch, hsent, Option.map_some,
      hprods, Option.some.injEq] at hannounce
    have hsession := congrArg (fun r => r.2.net.written) hannounce
    exact hsession.symm.trans rfl
  obtain ⟨store, hstore, hshown⟩ := hserve parseCatalog dumpCatalog
    [productsText ++ [10] ++ namesText, [10] ++ universeText ++ [10]]
    (by
      intro msg hmsg
      rw [hwritten] at hmsg
      simp only [List.mem_cons, List.not_mem_nil, or_false] at hmsg
      rcases hmsg with rfl | rfl | rfl
      · exact ⟨by decide +kernel, by decide +kernel, _, rfl, .refl _⟩
      · exact ⟨by decide +kernel, by decide +kernel, _, rfl, .refl _⟩
      · exact ⟨by decide +kernel, by decide +kernel, _, rfl, .refl _⟩)
    (by
      rw [hwritten]
      decide +kernel)
  obtain ⟨_, hoffered, hrows⟩ :=
    hshown [] 0 _ (Or.inr (Or.inl rfl)) rfl
  refine ⟨store, hstore, _, rfl, (hoffered _ hids).1, ?_⟩
  refine hrows "BTC-USD" (by simp) ?_
  intro ids hids' _
  rw [← Option.some.inj (hids.symm.trans hids')]
  exact List.mem_singleton_self _

end Coinbase

end ExecutionLayer
