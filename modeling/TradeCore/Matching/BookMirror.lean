import TradeCore.Orderbook.BookSafety
import TradeCore.Matching.ClockFree
/-!
# A mirror of the book

`match_core` changes the book by an `ExecuteOrder` update for each trade, and `match` by one `AddOrder` update at most.
These updates can be read off what the call returns (`published`), so who holds a copy of the book and dispatches them
to it has a mirror: the same book, but for the timestamps of its orders, and the same digest
(`published_updates_rebuild_book`).
-/

namespace TradeCore

variable {maxOrders maxLevels : PoolCapacity} {b : Build}

/-! ## Updates of a book, one after another -/

namespace OrderBook

theorem dispatchAll_append (book : OrderBook maxOrders maxLevels) (updates more : List BookUpdate) :
    book.dispatchAll (updates ++ more) = book.dispatchAll updates >>= fun book => book.dispatchAll more := by
  induction updates generalizing book with
  | nil => rfl
  | cons update updates ih =>
    rw [List.cons_append, dispatchAll, dispatchAll, bind_assoc]
    exact bind_congr fun book => ih book

/-- The same book, but for the timestamps. -/
def Mirrors (mirror book : OrderBook maxOrders maxLevels) : Prop := mirror.untimed = book.untimed

/-- **A mirror follows its book**, update after update, in every fault too. -/
theorem dispatchAll_untimed (book : OrderBook maxOrders maxLevels) (updates : List BookUpdate) :
    untimed <$> book.dispatchAll updates = book.untimed.dispatchAll (updates.map BookUpdate.untimed) := by
  induction updates generalizing book with
  | nil => rfl
  | cons update updates ih =>
    rw [List.map_cons, dispatchAll, dispatchAll, map_bind, ← dispatch_untimed, bind_map_left]
    exact bind_congr fun book => ih book

theorem Mirrors.dispatchAll {mirror book book' : OrderBook maxOrders maxLevels} (h : mirror.Mirrors book)
    {updates updates' : List BookUpdate} (hsame : updates.map BookUpdate.untimed = updates'.map BookUpdate.untimed)
    (hrun : book.dispatchAll updates' b = .ok book') : ∃ mirror', mirror.dispatchAll updates b = .ok mirror' ∧ mirror'.Mirrors book' := by
  have hsim : untimed <$> mirror.dispatchAll updates = untimed <$> book.dispatchAll updates' := by
    rw [dispatchAll_untimed, dispatchAll_untimed, h, hsame]
  exact Exec.ok_of_map_eq hsim hrun

theorem Mirrors.digest {mirror book : OrderBook maxOrders maxLevels} (h : mirror.Mirrors book) :
    BookDigest.compute mirror = BookDigest.compute book := by
  unfold BookDigest.compute
  rw [← BookDigest.hashBook_untimed _ _ mirror, h, BookDigest.hashBook_untimed]

end OrderBook

/-! ## What a call publishes -/

/-- The update of the book that `match_core` makes of a trade. -/
def Trade.update (t : Trade) : BookUpdate :=
  { BookUpdate.zero with
    type := UpdateType.executeOrder.toByte, orderId := t.restingOrderId, qty := t.quantity, price := t.price, matchId := t.tradeId }

/-- The quantity of a call that no trade has taken. -/
def OrderAction.left (action : OrderAction) (trades : List Trade) : UInt32 := action.qty - (trades.map Trade.quantity).sum

/-- What goes into the book after these trades. -/
def OrderAction.resting (action : OrderAction) (trades : List Trade) (timestamp : UInt64) : List BookUpdate :=
  if action.left trades > 0 ∧ action.type = .limit then
    [MatchingEngine.restUpdate { action with qty := action.left trades } timestamp]
  else []

/-- The updates of the book, as they can be read off a call and what it returned. -/
def published (action : OrderAction) (result : ExecutionResult) : List BookUpdate :=
  if result.status = .rejectedRisk then []
  else result.trades.data.map Trade.update ++ action.resting result.trades.data 0

/-- The updates of a run of calls. -/
def publishedAll : List OrderAction → List ExecutionResult → List BookUpdate
  | action :: actions, result :: results => published action result ++ publishedAll actions results
  | _, _ => []

/-! ## The loops -/

namespace MatchingEngine

/-- The loops came from one state to another by these trades: each is an update of the book. -/
structure Traded (b : Build) (st st' : MatchState maxOrders maxLevels) (more : List Trade) : Prop where
  trades : st'.trades.data = st.trades.data ++ more
  book : st.engine.book.dispatchAll (more.map Trade.update) b = .ok st'.engine.book
  incoming : st'.incoming = { st.incoming with qty := st.incoming.left more }

theorem Traded.refl (st : MatchState maxOrders maxLevels) : Traded b st st [] where
  trades := (List.append_nil _).symm
  book := rfl
  incoming := by
    unfold OrderAction.left
    rw [List.map_nil, List.sum_nil, UInt32.sub_zero]

theorem Traded.trans {st st' st'' : MatchState maxOrders maxLevels} {more more' : List Trade} (h : Traded b st st' more)
    (h' : Traded b st' st'' more') : Traded b st st'' (more ++ more') where
  trades := by rw [h'.trades, h.trades, List.append_assoc]
  book := by
    rw [List.map_append, OrderBook.dispatchAll_append, Exec.bind_eq_ok]
    exact ⟨_, h.book, h'.book⟩
  incoming := by
    rw [h'.incoming, h.incoming]
    unfold OrderAction.left
    rw [List.map_append, List.sum_append, sub_sub]

/-- **A sweep of a level** is a list of trades. -/
theorem sweepLevel_traded {fuel : ℕ} {st st' : MatchState maxOrders maxLevels} {currIdx : Index}
    (h : sweepLevel fuel st currIdx b = .ok st') : ∃ more, Traded b st st' more := by
  induction fuel generalizing st currIdx with
  | zero => cases h
  | succ fuel ih =>
    unfold sweepLevel at h
    split_ifs at h with hgo
    · obtain ⟨resting, -, h⟩ := Exec.bind_eq_ok.1 h
      obtain ⟨_, -, h⟩ := Exec.bind_eq_ok.1 h
      obtain ⟨trades, hpush, h⟩ := Exec.bind_eq_ok.1 h
      obtain ⟨book, hbook, h⟩ := Exec.bind_eq_ok.1 h
      obtain ⟨more, hmore⟩ := ih h
      refine ⟨_, Traded.trans ⟨StaticVector.pushBack_data hpush, ?_, ?_⟩ hmore⟩
      · rw [List.map_singleton, OrderBook.dispatchAll, Exec.bind_eq_ok]
        exact ⟨book, hbook, rfl⟩
      · unfold OrderAction.left
        rw [List.map_singleton, List.sum_singleton]
    · cases h
      exact ⟨[], .refl _⟩

theorem matchCore_traded {isMarket : Bool} {fuel : ℕ} {st st' : MatchState maxOrders maxLevels}
    (h : matchCore isMarket fuel st b = .ok st') : ∃ more, Traded b st st' more := by
  induction fuel generalizing st with
  | zero => cases h
  | succ fuel ih =>
    unfold matchCore at h
    dsimp only at h
    split_ifs at h with hgo
    · obtain ⟨best, -, h⟩ := Exec.bind_eq_ok.1 h
      cases best with
      | none => cases h
      | some bestLevel =>
        dsimp only at h
        split_ifs at h with hreach
        · cases h
          exact ⟨[], .refl _⟩
        · obtain ⟨swept, hswept, h⟩ := Exec.bind_eq_ok.1 h
          obtain ⟨more, hmore⟩ := sweepLevel_traded hswept
          obtain ⟨more', hmore'⟩ := ih h
          exact ⟨_, hmore.trans hmore'⟩
    · cases h
      exact ⟨[], .refl _⟩

/-! ## A call -/

variable {engine engine' : MatchingEngine maxOrders maxLevels} {action : OrderAction} {result : ExecutionResult}

theorem execute_published (h : engine.execute action b = .ok (result, engine')) :
    result.status ≠ .rejectedRisk ∧ ∃ timestamp, engine.book.dispatchAll
      (result.trades.data.map Trade.update ++ action.resting result.trades.data timestamp) b = .ok engine'.book := by
  obtain ⟨st, hcore, h⟩ := Exec.bind_eq_ok.1 h
  obtain ⟨more, hmore⟩ := matchCore_traded hcore
  have hst := hmore.incoming
  have htrades : st.trades.data = more := hmore.trades
  have hstatus : statusOf st.incoming st.trades ≠ .rejectedRisk := by
    unfold statusOf
    split_ifs <;> decide
  dsimp only at hst
  unfold settle at h
  dsimp only at h
  split_ifs at h with hrest
  · obtain ⟨book, hadd, h⟩ := Exec.bind_eq_ok.1 h
    obtain ⟨_, hrested, h⟩ := Exec.bind_eq_ok.1 h
    cases hrested
    obtain ⟨_, -, h⟩ := Exec.bind_eq_ok.1 h
    cases h
    refine ⟨hstatus, st.engine.clock st.engine.readings, ?_⟩
    rw [OrderBook.dispatchAll_append, Exec.bind_eq_ok]
    refine ⟨st.engine.book, by rw [htrades]; exact hmore.book, ?_⟩
    rw [hst] at hrest hadd
    unfold OrderAction.resting
    rw [htrades, if_pos hrest, OrderBook.dispatchAll, Exec.bind_eq_ok]
    exact ⟨book, hadd, rfl⟩
  · obtain ⟨_, hswept, h⟩ := Exec.bind_eq_ok.1 h
    cases hswept
    obtain ⟨_, -, h⟩ := Exec.bind_eq_ok.1 h
    cases h
    refine ⟨hstatus, 0, ?_⟩
    rw [hst] at hrest
    unfold OrderAction.resting
    rw [htrades, if_neg hrest, List.append_nil]
    exact hmore.book

/-- A call that was rejected before the loops publishes nothing. -/
theorem published_empty (status : ExecutionStatus) (h : status = .rejectedRisk ∨ action.type = .fok) :
    published action ⟨status, StaticVector.empty⟩ = [] := by
  unfold published OrderAction.resting
  rcases h with h | h
  · rw [if_pos h]
  · rw [if_neg (c := _ ∧ _) (by rw [h]; simp)]
    exact ite_self _

/-- **A call is the updates that it publishes**: they lead from the book before it to the book behind it. -/
theorem matchOrder_published (h : engine.matchOrder action b = .ok (result, engine')) :
    ∃ updates : List BookUpdate, updates.map BookUpdate.untimed = (published action result).map BookUpdate.untimed ∧
      engine.book.dispatchAll updates b = .ok engine'.book := by
  -- the loops ran
  have hran : engine.execute action b = .ok (result, engine') →
      ∃ updates : List BookUpdate, updates.map BookUpdate.untimed = (published action result).map BookUpdate.untimed ∧
        engine.book.dispatchAll updates b = .ok engine'.book := by
    intro h
    obtain ⟨hstatus, timestamp, hrun⟩ := execute_published h
    refine ⟨_, ?_, hrun⟩
    unfold published OrderAction.resting
    rw [if_neg hstatus, List.map_append, List.map_append]
    split_ifs
    · rfl
    · rfl
  unfold matchOrder at h
  split_ifs at h with hrisk hfok
  · cases h
    exact ⟨[], by rw [published_empty _ (Or.inl rfl)], rfl⟩
  · obtain ⟨enough, -, h⟩ := Exec.bind_eq_ok.1 h
    cases enough with
    | true => exact hran h
    | false =>
      cases h
      exact ⟨[], by rw [published_empty _ (Or.inr hfok)], rfl⟩
  · exact hran h

/-- **One call**: the mirror follows. -/
theorem matchOrder_mirrored {mirror : OrderBook maxOrders maxLevels} (hm : mirror.Mirrors engine.book)
    (h : engine.matchOrder action b = .ok (result, engine')) :
    ∃ mirror', mirror.dispatchAll (published action result) b = .ok mirror' ∧ mirror'.Mirrors engine'.book := by
  obtain ⟨updates, hsame, hrun⟩ := matchOrder_published h
  exact hm.dispatchAll hsame.symm hrun

end MatchingEngine

/-- **The published updates rebuild the book.** Who holds a mirror of the book of an engine and dispatches to it the updates
that a run of calls publishes, in either build, meets no fault and has a mirror of the book that the run leaves, with the
same digest. -/
theorem published_updates_rebuild_book (engine : MatchingEngine maxOrders maxLevels) (actions : List OrderAction)
    {results : List ExecutionResult} {engine' : MatchingEngine maxOrders maxLevels} (h : engine.matchAll actions b = .ok (results, engine'))
    (mirror : OrderBook maxOrders maxLevels) (hm : mirror.untimed = engine.book.untimed) :
    ∃ mirror', mirror.dispatchAll (publishedAll actions results) b = .ok mirror' ∧ mirror'.untimed = engine'.book.untimed ∧
      BookDigest.compute mirror' = BookDigest.compute engine'.book := by
  suffices hrun : ∃ mirror', mirror.dispatchAll (publishedAll actions results) b = .ok mirror' ∧ mirror'.Mirrors engine'.book by
    obtain ⟨mirror', hmirror, hsame⟩ := hrun
    exact ⟨mirror', hmirror, hsame, hsame.digest⟩
  induction actions generalizing engine mirror results with
  | nil =>
    cases h
    exact ⟨mirror, rfl, hm⟩
  | cons action actions ih =>
    obtain ⟨⟨result, engine1⟩, hcall, h⟩ := Exec.bind_eq_ok.1 h
    obtain ⟨⟨results1, engine2⟩, hrest, h⟩ := Exec.bind_eq_ok.1 h
    cases h
    obtain ⟨mirror1, hmirror1, hm1⟩ := MatchingEngine.matchOrder_mirrored hm hcall
    obtain ⟨mirror', hmirror, hsame⟩ := ih engine1 hrest mirror1 hm1
    refine ⟨mirror', ?_, hsame⟩
    rw [publishedAll, OrderBook.dispatchAll_append, Exec.bind_eq_ok]
    exact ⟨mirror1, hmirror1, hmirror⟩

theorem published_updates_rebuild_book_two : ∃ (results : List ExecutionResult) (engine' : MatchingEngine four four)
    (mirror' : OrderBook four four), emptyEngine.matchAll [buyFive, sellThree] .debug = .ok (results, engine') ∧
      emptyEngine.book.dispatchAll (publishedAll [buyFive, sellThree] results) .debug = .ok mirror' ∧
      BookDigest.compute mirror' = BookDigest.compute engine'.book := by
  obtain ⟨⟨results, engine'⟩, hrun⟩ : ∃ out, emptyEngine.matchAll [buyFive, sellThree] .debug = .ok out := ⟨_, rfl⟩
  obtain ⟨mirror', hmirror, -, hdigest⟩ := published_updates_rebuild_book emptyEngine _ hrun emptyEngine.book rfl
  exact ⟨results, engine', mirror', hrun, hmirror, hdigest⟩

end TradeCore
