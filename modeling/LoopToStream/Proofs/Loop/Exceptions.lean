import LoopToStream.Proofs.Flow.Bounds
import LoopToStream.Proofs.Flow.Outside
import LoopToStream.Proofs.Loop.Answering

/-!
# Exceptions that leave a body

Which checked exceptions may come out of a body is found out call by call, by going up from the call
and looking for a `try` that catches the exception. `BodySummary.checked_iff` says what this comes
to, in terms of the code: an exception is listed if and only if

* a call or creation in the body, not inside of a function literal, is known to declare it;
* it is neither a `RuntimeException` nor an `Error`, as far as the hierarchy goes;
* no `try` in the body has the call in its protected part and a handler for the exception
  (`Tree.IsCaught`). Handlers are not protected by their own `try`.

The calls about which nothing is known are listed in the order of the code.
-/

namespace LoopToStream

open Attempt (Unrefused)

variable {analyzer : Analyzer} {tree : Tree} {body site : NodeId} {name : String}

namespace Tree

/-! ### Calls and handlers -/

/-- A call or a creation of an object in `body`, not inside of a function literal or method
reference. -/
def IsCallIn (tree : Tree) (body site : NodeId) : Prop :=
  tree.ReachesOutsideClosures body site ∧ ∃ e, tree.expr? site = some e ∧ e.isCallLike = true

/-- **An exception is caught** at or below `body` if it is thrown at `site`: a `try` has the site in
its protected part, and one of its handlers takes the exception. -/
def IsCaught (tree : Tree) (hierarchy : Hierarchy) (body site : NodeId) (name : String) : Prop :=
  ∃ t protectedPart handlers, tree.Reaches body t ∧
    tree.stmt? t = some (.tryCatch protectedPart handlers) ∧ tree.Reaches protectedPart site ∧
    ∃ handler ∈ handlers, ∃ type ∈ handler.types, hierarchy.isSubtype name type.name = true

end Tree

namespace BodySummary

variable {up child : NodeId}

/-! ### What is said about a call -/

theorem catches_iff : catches analyzer tree name child up = true ↔
    ∃ handlers, tree.stmt? up = some (.tryCatch child handlers) ∧
      ∃ handler ∈ handlers, ∃ type ∈ handler.types,
        analyzer.symbols.hierarchy.isSubtype name type.name = true := by
  unfold catches
  split
  · next protectedPart handlers hstmt => simp [hstmt]
  · next hno =>
    constructor
    · intro h
      cases h
    · rintro ⟨handlers, hstmt, -⟩
      exact absurd hstmt (hno child handlers)

open Classical in
/-- **The way up from a call finds out whether the exception is caught.** -/
theorem isCaughtWithin_eq (hwf : tree.WellFormed) (hbody : tree.Attached body)
    (hsite : tree.StrictlyReaches body site) :
    isCaughtWithin analyzer tree body name site =
      .ok (decide (tree.IsCaught analyzer.symbols.hierarchy body site name)) := by
  rw [isCaughtWithin, hwf.climb_upTo (catches analyzer tree name) hbody hsite,
    ok_bind]
  refine congrArg Except.ok (decide_eq_decide.2 ?_)
  -- the way up goes by a `try` from its protected part if and only if the site is below that part
  constructor
  · rintro ⟨up, child, ⟨hup, -, hsite⟩, hcatches⟩
    obtain ⟨handlers, hstmt, hhandler⟩ := catches_iff.1 hcatches
    exact ⟨up, child, handlers, hup, hstmt, hsite, hhandler⟩
  · rintro ⟨up, child, handlers, hup, hstmt, hsite, hhandler⟩
    refine ⟨up, child, ⟨hup, ?_, hsite⟩, catches_iff.2 ⟨handlers, hstmt, hhandler⟩⟩
    simp [Tree.parts_eq_children (Tree.stmt?_eq_some.1 hstmt), Kind.children, Stmt.children]

open Classical in
/-- The names that are listed for a call. -/
theorem mem_escaping (hwf : tree.WellFormed) (hbody : tree.Attached body)
    (hsite : tree.StrictlyReaches body site) {names : List String}
    (h : escaping analyzer tree body site = .ok names) :
    name ∈ names ↔ ∃ signature, analyzer.symbols.resolve? tree site = some signature ∧
      (∃ type ∈ signature.throws, type.name = name) ∧
      analyzer.symbols.hierarchy.isUnchecked name = false ∧
      ¬ tree.IsCaught analyzer.symbols.hierarchy body site name := by
  unfold escaping at h
  -- an unknown call declares nothing
  cases hsignature : analyzer.symbols.resolve? tree site with
  | none =>
    rw [hsignature] at h
    cases h
    simp
  | some signature =>
    rw [hsignature] at h
    dsimp only at h
    -- the way up is only gone for exceptions that have to be declared, which makes no difference
    rw [filterM_eq_ok (p := fun name => !analyzer.symbols.hierarchy.isUnchecked name &&
      !decide (tree.IsCaught analyzer.symbols.hierarchy body site name))] at h
    · cases h
      simp
    · intro name _
      rw [isCaughtWithin_eq hwf hbody hsite]
      cases analyzer.symbols.hierarchy.isUnchecked name <;> rfl

/-! ### What is said about a body -/

open Classical in
/-- The calls of a statement are listed in the order of the code. -/
theorem callsIn_eq_filter (hwf : tree.WellFormed) (hbody : tree.Attached body)
    (hopen : tree.isClosure body = false) :
    callsIn tree body =
      .ok ((tree.preorder body).filter fun id => decide (tree.IsCallIn body id)) := by
  rw [callsIn_eq hwf hbody, Tree.preorderWhere_eq_outside hopen, hwf.outside_eq_filter hbody hopen,
    List.filter_filter]
  refine congrArg Except.ok (List.filter_congr fun id _ => ?_)
  rw [Bool.eq_iff_iff]
  simp [Tree.IsCallIn, Option.any_eq_true, and_comm]

/-- A call is not the statement that it is in. -/
theorem strictlyReaches_of_isCallIn {s : Stmt NodeId} (hstmt : tree.stmt? body = some s)
    (h : tree.IsCallIn body site) : tree.StrictlyReaches body site := by
  obtain ⟨hreaches, e, he, -⟩ := h
  refine (Tree.reaches_iff_eq_or_strictly.1 hreaches.reaches).resolve_left ?_
  -- no node is a statement and an expression
  rintro rfl
  rw [Tree.stmt?_eq_some] at hstmt
  rw [Tree.expr?_eq_some, hstmt] at he
  cases he

/-! Without bounds, a body gets its summary. -/

theorem capture_unrefused (hflow : analyzer.flow = .unbounded) (v : VarId) :
    (capture analyzer tree body v).Unrefused := by
  rw [capture, hflow]
  refine (Unrefused.lift _).bind fun declared => ?_
  split
  · exact .pure _
  · exact Flow.isEffectivelyFinal_unrefused.bind fun final => .pure _

theorem of_unrefused (hflow : analyzer.flow = .unbounded) : (of analyzer tree body).Unrefused := by
  rw [of, hflow]
  refine Flow.exits_unrefused.bind fun exits => ?_
  refine Flow.used_unrefused.bind fun read => ?_
  refine Flow.written_unrefused.bind fun written => ?_
  refine (Unrefused.mapM read (capture_unrefused hflow)).bind fun captured => ?_
  refine (Unrefused.lift _).bind fun calls => ?_
  exact (Unrefused.mapM calls fun id => Unrefused.lift _).bind fun checked => .pure _

open Classical in
/-- **The checked exceptions that leave a body.** -/
theorem checked_iff {s : Stmt NodeId} (hwf : tree.WellFormed)
    (hattached : tree.isAttached body = .ok true) (hstmt : tree.stmt? body = some s) :
    (analyzer.flow = .unbounded → ∃ summary, of analyzer tree body = .ok summary) ∧
    ∀ summary, of analyzer tree body = .ok summary →
      (∀ name, name ∈ summary.checked ↔ ∃ site signature, tree.IsCallIn body site ∧
        analyzer.symbols.resolve? tree site = some signature ∧
        (∃ type ∈ signature.throws, type.name = name) ∧
        analyzer.symbols.hierarchy.isSubtype name "RuntimeException" = false ∧
        analyzer.symbols.hierarchy.isSubtype name "Error" = false ∧
        ¬ tree.IsCaught analyzer.symbols.hierarchy body site name) ∧
      summary.unresolved = (tree.preorder body).filter fun id =>
        decide (tree.IsCallIn body id ∧ analyzer.symbols.resolve? tree id = none) := by
  have here := Tree.stmt?_eq_some.1 hstmt
  have hbody := (hwf.isAttached_eq_true (Tree.lt_size_of_kind? here)).1 hattached
  have hopen : tree.isClosure body = false := by simp [Tree.isClosure, Tree.expr?, here, Kind.expr?]
  refine ⟨fun hflow => ?_, fun summary hsummary => ?_⟩
  · obtain ⟨summary, hsummary, -⟩ := (of_unrefused hflow).exists_ok (of_answered analyzer hwf hbody)
    exact ⟨summary, hsummary⟩
  -- from here on there is a summary, and it is asked how its lists were made
  obtain ⟨calls, checked, hcalls, hchecked, hnames, hunresolved⟩ := calls_of_eq_ok hsummary
  rw [callsIn_eq_filter hwf hbody hopen] at hcalls
  obtain rfl := Except.ok.inj hcalls
  -- the calls that are looked at are those that the statement is about
  have hcall :
      ∀ site, site ∈ (tree.preorder body).filter (fun id => decide (tree.IsCallIn body id)) ↔
      tree.IsCallIn body site := fun site => by
    rw [List.mem_filter, decide_eq_true_eq, Tree.mem_preorder_iff]
    exact and_iff_right_of_imp fun h => h.1.reaches
  refine ⟨fun name => ?_, ?_⟩
  · rw [hnames, Ascending.mem_ofList, List.mem_flatten]
    -- a name is listed if it is among those of some call
    constructor
    · rintro ⟨names, hmem, hname⟩
      obtain ⟨site, hsite, hescaping⟩ := exists_of_mem_mapM hchecked names hmem
      have hin := (hcall site).1 hsite
      obtain ⟨signature, hsignature, hthrows, hunchecked, huncaught⟩ :=
        (mem_escaping hwf hbody (strictlyReaches_of_isCallIn hstmt hin) hescaping).1 hname
      obtain ⟨hruntime, herror⟩ := Bool.or_eq_false_iff.1 hunchecked
      exact ⟨site, signature, hin, hsignature, hthrows, hruntime, herror, huncaught⟩
    · rintro ⟨site, signature, hin, hsignature, hthrows, hruntime, herror, huncaught⟩
      obtain ⟨names, hmem, hescaping⟩ := exists_of_mapM_eq_ok hchecked site ((hcall site).2 hin)
      refine ⟨names, hmem, ?_⟩
      exact (mem_escaping hwf hbody (strictlyReaches_of_isCallIn hstmt hin) hescaping).2
        ⟨signature, hsignature, hthrows, Bool.or_eq_false_iff.2 ⟨hruntime, herror⟩, huncaught⟩
  · rw [hunresolved, List.filter_filter]
    refine List.filter_congr fun id _ => ?_
    rw [Bool.eq_iff_iff]
    simp [and_comm]

/-- The statements `try { r.read(); } catch (IOException e) { r.close(); } f(() -> r.read());`, as a
block. -/
def readingBody : Tree where
  nodes := #[
    ⟨.expr (.name "r" (some ⟨0⟩)), some ⟨1⟩, Tree.placeOf 0⟩,
    ⟨.expr (.call ⟨some ⟨0⟩, "read", [], some ⟨0⟩⟩), some ⟨2⟩, Tree.placeOf 1⟩,
    ⟨.stmt (.expr ⟨1⟩), some ⟨3⟩, Tree.placeOf 2⟩,
    ⟨.stmt (.block [⟨2⟩]), some ⟨8⟩, Tree.placeOf 3⟩,
    ⟨.expr (.name "r" (some ⟨0⟩)), some ⟨5⟩, Tree.placeOf 4⟩,
    ⟨.expr (.call ⟨some ⟨4⟩, "close", [], some ⟨1⟩⟩), some ⟨6⟩, Tree.placeOf 5⟩,
    ⟨.stmt (.expr ⟨5⟩), some ⟨7⟩, Tree.placeOf 6⟩,
    ⟨.stmt (.block [⟨6⟩]), some ⟨8⟩, Tree.placeOf 7⟩,
    ⟨.stmt (.tryCatch ⟨3⟩ [⟨⟨1⟩, [.simple "IOException"], ⟨7⟩⟩]), some ⟨14⟩, Tree.placeOf 8⟩,
    ⟨.expr (.name "r" (some ⟨0⟩)), some ⟨10⟩, Tree.placeOf 9⟩,
    ⟨.expr (.call ⟨some ⟨9⟩, "read", [], some ⟨0⟩⟩), some ⟨11⟩, Tree.placeOf 10⟩,
    ⟨.expr (.lambda [] false ⟨10⟩), some ⟨12⟩, Tree.placeOf 11⟩,
    ⟨.expr (.call ⟨none, "f", [⟨11⟩], none⟩), some ⟨13⟩, Tree.placeOf 12⟩,
    ⟨.stmt (.expr ⟨12⟩), some ⟨14⟩, Tree.placeOf 13⟩,
    ⟨.stmt (.block [⟨8⟩, ⟨13⟩]), none, Tree.placeOf 14⟩]
  vars := #[⟨"r", .simple "Reader", .parameter, false⟩,
    ⟨"e", .simple "IOException", .catchParameter, false⟩]
  root := ⟨14⟩
  scope := .unknown
  revision := 0

/-- Two exceptions that have nothing to do with each other. -/
def twoExceptions : Hierarchy := ⟨[("IOException", []), ("SQLException", [])]⟩

/-- Where reading throws one of them, and closing the other. -/
def knowingReader : Analyzer :=
  let read : Signature := ⟨"Reader", "read", [], 0, [.simple "IOException"], none, false⟩
  let close : Signature := ⟨"Reader", "close", [], 0, [.simple "SQLException"], none, false⟩
  ⟨⟨twoExceptions, #[read, close], []⟩, .unbounded⟩

/-- The exception of the protected part is caught, and that of the handler is not. -/
theorem checked_readingBody :
    readingBody.IsCaught twoExceptions ⟨14⟩ ⟨1⟩ "IOException" ∧
      ∃ site, readingBody.IsCallIn ⟨14⟩ site ∧
        ¬ readingBody.IsCaught twoExceptions ⟨14⟩ site "SQLException" := by
  have hwf : readingBody.WellFormed := .of_isInOrder (by decide)
  have hstmt : readingBody.stmt? ⟨14⟩ = some (.block [⟨8⟩, ⟨13⟩]) := rfl
  obtain ⟨hexists, hall⟩ := @checked_iff knowingReader _ _ _ hwf (by cbv) hstmt
  obtain ⟨summary, hsummary⟩ := hexists rfl
  obtain ⟨found, hfound, hchecked⟩ : ∃ found, of knowingReader readingBody ⟨14⟩ = .ok found ∧
      found.checked = ["SQLException"] := ⟨_, by cbv, by cbv⟩
  obtain rfl := Except.ok.inj (hsummary.symm.trans hfound)
  obtain ⟨hnames, -⟩ := hall summary hsummary
  constructor
  · by_contra huncaught
    have hcall : readingBody.IsCallIn ⟨14⟩ ⟨1⟩ :=
      ⟨(Tree.mem_outside_iff (by decide)).1 (by decide), _, rfl, rfl⟩
    have hresolve : knowingReader.symbols.resolve? readingBody ⟨1⟩ =
        some ⟨"Reader", "read", [], 0, [.simple "IOException"], none, false⟩ := rfl
    have hruntime : twoExceptions.isSubtype "IOException" "RuntimeException" = false := by cbv
    have herror : twoExceptions.isSubtype "IOException" "Error" = false := by cbv
    -- the call in the protected part would be listed, and it is not
    have hlisted : "IOException" ∈ summary.checked :=
      (hnames "IOException").2 ⟨⟨1⟩, _, hcall, hresolve, ⟨_, List.mem_singleton_self _, rfl⟩,
        hruntime, herror, huncaught⟩
    rw [hchecked] at hlisted
    exact absurd hlisted (by decide)
  · obtain ⟨site, -, hcall, -, -, -, -, huncaught⟩ := (hnames "SQLException").1 (by simp [hchecked])
    exact ⟨site, hcall, huncaught⟩

end BodySummary

end LoopToStream
