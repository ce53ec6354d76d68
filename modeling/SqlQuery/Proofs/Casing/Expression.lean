import SqlQuery.Grammar.Expression
import SqlQuery.Proofs.Casing.Rule

/-!
The rules for expressions on tokens in lowercase. Words that are no keywords are compared in
lowercase, names are made lowercase before they are compared with the types and functions that are
known, and what else is read of a text is kept as it is.
-/

namespace SqlQuery.Grammar

open Rule
open Rule (Lowers)

variable {level : Level} {scope : Scope}

theorem startsQuery_lowers (n : Nat) : Lowers id (startsQuery n) (startsQuery n) :=
  .look n fun t => by simp

theorem values_lowers (h : level.Lowers) :
    Lowers (List.map Expr.lower) (values level) (values level) :=
  (h.expr 0).commaList

theorem valuesBefore_lowers (h : level.Lowers) (close : Kind) :
    Lowers (List.map Expr.lower) (valuesBefore close level) (valuesBefore close level) :=
  (Lowers.look 0 (Token.isKind_lower close)).choose (.ret rfl) (values_lowers h)

theorem argumentValues_lowers (h : level.Lowers) :
    Lowers Expr.lower (argumentValues level) (argumentValues level) := by
  refine (values_lowers h).bind fun es => ?_
  match es with
  | [] => exact .ret rfl
  | [e] => exact .ret rfl
  | e :: f :: others => exact .ret (by simp [Expr.lower])

theorem nestedQuery_lowers (h : level.Lowers) :
    Lowers Query.lower (nestedQuery level) (nestedQuery level) :=
  h.query.bind fun _ => Lowers.closeParen.pass fun _ => .ret rfl

theorem parenthesizedQuery_lowers (h : scope.Lowers) :
    Lowers Expr.lower (parenthesizedQuery scope) (parenthesizedQuery scope) :=
  Lowers.openParen.pass fun _ => (h.enter fun _ => nestedQuery_lowers).map fun _ => rfl

theorem parenthesized_lowers (h : scope.Lowers) :
    Lowers Expr.lower (parenthesized scope) (parenthesized scope) := by
  refine (startsQuery_lowers 1).choose (parenthesizedQuery_lowers h) (Lowers.skip.pass fun _ => ?_)
  refine Lowers.bind (g := List.map Expr.lower) (h.enter fun level lowers => ?_) fun es => ?_
  · exact (values_lowers lowers).bind fun _ => Lowers.closeParen.pass fun _ => .ret rfl
  · match es with
    | [] => exact .ret rfl
    | [e] => exact .ret rfl
    | e :: f :: others => exact .ret (by simp [Expr.lower])

theorem membership_lowers (h : scope.Lowers) (power : Nat) :
    Lowers Expr.lower (membership scope power) (membership scope power) := by
  refine (Lowers.look 0 (Token.isKind_lower _)).pass fun opened => ?_
  refine (startsQuery_lowers 1).pass fun starts => .ite (h.here.expr power) ?_
  refine Lowers.skip.pass fun _ => Lowers.map (g := List.map Expr.lower) ?_ fun es => by
    simp [Expr.lower]
  refine h.enter fun level lowers => (valuesBefore_lowers lowers _).bind fun _ => ?_
  exact Lowers.closeParen.pass fun _ => .ret rfl

theorem timeZone_lowers : Lowers Text.lower timeZone timeZone := by
  have same (word : String) (t : Token) : t.lower.isWord word = t.isWord word :=
    t.isWord_lower word
  refine (Lowers.look 1 (p := (Token.isWord · "time")) (same "time")).pass fun time => ?_
  refine (Lowers.look 2 (p := (Token.isWord · "zone")) (same "zone")).pass fun zone =>
    .ite ?_ (.ret rfl)
  have skips {suffix : String} (lower : suffix = Text.lower suffix) : Lowers Text.lower
      (do skip; skip; return suffix : Rule String) (do skip; skip; return suffix) :=
    Lowers.skip.pass fun _ => Lowers.skip.pass fun _ => .ret lower
  exact (Lowers.eatKeyword _).choose (skips (by decide +kernel))
    ((Lowers.eatWord _).choose (skips (by decide +kernel)) (.ret rfl))

theorem typeSuffix_lowers (name : String) :
    Lowers Text.lower (typeSuffix name) (typeSuffix name) := by
  have one (word : String) {suffix : String} (lower : suffix = Text.lower suffix) :
      Lowers Text.lower (do if ← eatWord word then return suffix else return "" : Rule String)
      (do if ← eatWord word then return suffix else return "") :=
    (Lowers.eatWord word).choose (.ret lower) (.ret rfl)
  exact .ite (one _ (by decide)) (.ite (one _ (by decide)) (.ite timeZone_lowers (.ret rfl)))

theorem typeRef_lowers (h : level.Lowers) :
    Lowers TypeRef.lower (typeRef level) (typeRef level) := by
  have read (t : Token) : (if isName t then some (Text.lower t.text) else none) =
      (if isName t then some t.text else none).map Text.lower := by
    split <;> rfl
  unfold typeRef
  simp only [read, expect_map, bind_map_left]
  refine (Lowers.expectName _).bind fun name => ?_
  rw [Text.lower_lower]
  refine (typeSuffix_lowers _).bind fun suffix => ?_
  refine (Lowers.after (g := Expr.lower) (.eatKind _) ?_).bind fun argument => .ret ?_
  · refine (values_lowers h).bind fun es => Lowers.closeParen.pass fun _ => .ret ?_
    simp [Expr.lower]
  · simp [TypeRef.lower, Text.lower_append]

def Suffix.lower : Suffix → Suffix
  | .cast type => .cast type.lower
  | .between negated lower upper => .between negated lower.lower upper.lower
  | .binary operator right => .binary operator right.lower

theorem Suffix.apply_lower (operand : Expr) (suffix : Suffix) :
    (suffix.apply operand).lower = suffix.lower.apply operand.lower := by
  cases suffix <;> rfl

theorem Suffix.foldl_lower (suffixes : List Suffix) (first : Expr) :
    (suffixes.foldl Suffix.apply first).lower =
      (suffixes.map Suffix.lower).foldl Suffix.apply first.lower := by
  induction suffixes generalizing first with
  | nil => rfl
  | cons suffix suffixes ih =>
    rw [List.foldl_cons, List.map_cons, List.foldl_cons, ih, Suffix.apply_lower]

theorem operatorSuffix_lowers (h : scope.Lowers) (operator : String) (power : Nat) :
    Lowers Suffix.lower (operatorSuffix scope operator power)
      (operatorSuffix scope operator power) := by
  refine .ite ((typeRef_lowers h.here).map fun _ => rfl) (.ite ?_ (.ite ?_ ?_))
  · refine (h.here.expr power).bind fun lower => (Lowers.keyword _).pass fun _ => ?_
    exact (h.here.expr power).bind fun upper => .ret rfl
  · exact (membership_lowers h power).map fun _ => rfl
  · exact (h.here.expr power).map fun _ => rfl

theorem binary?_free {t : Token} (free : t.kind.isFixed = false) : Power.binary? t = none := by
  unfold Power.binary?
  split
  case h_3 => rfl
  all_goals
    rename_i kind
    rw [kind] at free
    cases free

/-- An operator is a symbol or a keyword, which have one case only. -/
theorem operatorFrom_lower (floor : Nat) (t : Token) :
    operatorFrom floor t.lower = operatorFrom floor t := by
  refine Token.eq_of_fixed (fun t free => ?_) t
  have free' : t.lower.kind.isFixed = false := by rwa [Token.lower_kind]
  rw [operatorFrom, binary?_free free', operatorFrom, binary?_free free]

theorem suffix_lowers (h : scope.Lowers) (floor : Nat) :
    Lowers (Option.map Suffix.lower) (suffix scope floor) (suffix scope floor) := by
  refine (Lowers.acceptPlain (operatorFrom_lower floor)).pass fun o => ?_
  cases o with
  | none => exact .ret rfl
  | some found => exact (operatorSuffix_lowers h found.1 found.2).map fun _ => rfl

theorem direction_lowers : Lowers id direction direction :=
  (Lowers.eatKeyword _).choose (.ret rfl) ((Lowers.eatKeyword _).pass fun _ => .ret rfl)

theorem nullsPosition_lowers : Lowers id nullsPosition nullsPosition :=
  (Lowers.eatKeyword _).choose (.ret rfl) ((Lowers.eatKeyword _).choose (.ret rfl) (.ret rfl))

theorem orderItem_lowers (h : level.Lowers) :
    Lowers OrderItem.lower (orderItem level) (orderItem level) :=
  (h.expr 0).bind fun _ => direction_lowers.pass fun _ => nullsPosition_lowers.pass fun _ =>
    .ret rfl

theorem orderBy_lowers (h : level.Lowers) :
    Lowers (Option.map (List.map OrderItem.lower)) (orderBy level) (orderBy level) :=
  (Lowers.eatKeyword _).after (orderItem_lowers h).commaList

theorem bound_lowers (h : level.Lowers) : Lowers Bound.lower (bound level) (bound level) := by
  refine (Lowers.eatWord _).choose ?_ ((Lowers.eatWord _).choose ?_ ((h.expr 0).bind fun e => ?_))
  · exact (Lowers.eatWord _).choose (.ret rfl) ((Lowers.word _).pass fun _ => .ret rfl)
  · exact (Lowers.word _).pass fun _ => .ret rfl
  · exact (Lowers.eatWord _).choose (.ret rfl) ((Lowers.word _).pass fun _ => .ret rfl)

theorem frame_lowers (h : level.Lowers) :
    Lowers (Option.map Frame.lower) (frame level) (frame level) := by
  refine (Lowers.acceptPlain fun t => by simp [frameUnit?]).pass fun o => ?_
  cases o with
  | none => exact .ret rfl
  | some unit =>
    refine (Lowers.eatKeyword _).choose ((bound_lowers h).bind fun start => ?_)
      ((bound_lowers h).bind fun start => .ret rfl)
    exact (Lowers.keyword _).pass fun _ => (bound_lowers h).bind fun stop => .ret rfl

theorem windowSpec_lowers (h : level.Lowers) :
    Lowers WindowSpec.lower (windowSpec level) (windowSpec level) := by
  refine ((Lowers.eatKeyword _).after (values_lowers h)).bind fun partition => ?_
  refine (orderBy_lowers h).bind fun order => (frame_lowers h).bind fun frame => .ret ?_
  simp [WindowSpec.lower]

theorem windowRef_lowers (h : scope.Lowers) :
    Lowers Over.lower (windowRef scope) (windowRef scope) := by
  refine (Lowers.look 0 (Token.isKind_lower _)).choose (Lowers.name.map fun _ => rfl) ?_
  refine (Lowers.require (Token.isKind_lower _)).pass fun _ => ?_
  refine Lowers.map (g := WindowSpec.lower) (h.enter fun level lowers => ?_) fun _ => rfl
  exact (windowSpec_lowers lowers).bind fun _ => Lowers.closeParen.pass fun _ => .ret rfl

theorem extractField_lowers (name : String) :
    Lowers (Option.map Text.lower) (extractField name) (extractField (Text.lower name)) := by
  refine (Lowers.look 1 (Token.isCommand_lower · _)).pass fun follows => ?_
  rw [Text.lower_lower]
  refine .ite ((Lowers.accept (g := Text.lower) fun t => ?_).bind fun field => ?_) (.ret rfl)
  · rw [Token.isKind_lower, Token.lower_lower_text]
    split <;> simp
  · cases field with
    | none => exact .ret rfl
    | some text => exact Lowers.skip.pass fun _ => .ret rfl

theorem argument_lowers (h : level.Lowers) (name : String) :
    Lowers (Option.map Expr.lower) (argument name level) (argument (Text.lower name) level) := by
  have star (t : Token) : (isKind .identifier t.lower && t.lower.text == wildcardName) =
      (isKind .identifier t && t.text == wildcardName) := by
    rw [Token.isKind_lower]
    cases named : isKind .identifier t with
    | false => rfl
    | true =>
      rw [Token.lower_text (Token.free_of_isKind rfl t named)]
      exact Token.lower_beq_wildcard t.text
  refine (Lowers.look 0 (Token.isKind_lower _)).choose (.ret rfl) ?_
  refine (Lowers.eat star).choose (.ret ?_) ?_
  · rw [Option.map_some, Expr.lower, ColumnRef.lower_wildcard]
  refine (Lowers.eatKeyword _).choose ((argumentValues_lowers h).bind fun e => .ret rfl) ?_
  refine (startsQuery_lowers 0).choose (h.query.bind fun q => .ret rfl) ?_
  refine (extractField_lowers name).bind fun o => ?_
  cases o with
  | none => exact (argumentValues_lowers h).bind fun e => .ret rfl
  | some field => exact (h.expr 0).bind fun e => .ret rfl

theorem functionCall_lowers (h : scope.Lowers) (namespaces : List String) (name : String) :
    Lowers FunctionCall.lower (functionCall scope namespaces name)
      (functionCall scope (namespaces.map Text.lower) (Text.lower name)) := by
  refine Lowers.openParen.pass fun _ => ?_
  refine Lowers.bind (g := Option.map Expr.lower) (h.enter fun level lowers => ?_) fun o => ?_
  · exact (argument_lowers lowers name).bind fun _ => Lowers.closeParen.pass fun _ => .ret rfl
  · refine ((Lowers.eatKeyword _).after (windowRef_lowers h)).bind fun window => .ret ?_
    simp [FunctionCall.lower]

theorem pathUpTo_lowers (bound : List Token) :
    Lowers (List.map Text.lower) (pathUpTo bound) (pathUpTo (bound.map Token.lower)) := by
  induction bound with
  | nil => exact .fail _
  | cons t bound ih =>
    refine (Lowers.expect (Token.text_lower (Token.isKind_lower _)
      (Token.free_of_isKind rfl))).bind fun name => ?_
    have wildcard : (Text.lower name == wildcardName) = (name == wildcardName) :=
      Token.lower_beq_wildcard name
    rw [wildcard]
    refine .ite (.ret rfl) ((Lowers.eatKind _).choose (ih.bind fun names => ?_) (.ret rfl))
    exact .ret rfl

theorem path_lowers : Lowers (List.map Text.lower) path path := fun ts => pathUpTo_lowers ts ts

theorem typedString_lowers (allowed : Bool) :
    Lowers (Option.map Text.lower) (typedString allowed) (typedString allowed) := by
  refine .ite (.accept (Token.text_lower (p := fun t => isKind .literal t && isQuoted t.text)
    (fun t => ?_) fun t asked => ?_)) (.ret rfl)
  · rw [Token.isKind_lower]
    cases literal : isKind .literal t with
    | false => rfl
    | true => rw [Token.lower_text (Token.free_of_isKind rfl t literal), isQuoted_lower]
  · exact Token.free_of_isKind rfl t (Bool.and_eq_true_iff.1 asked).1

theorem dropLast_lower (names : List String) :
    (names.map Text.lower).dropLast = names.dropLast.map Text.lower :=
  List.map_dropLast.symm

theorem getLastD_lower (names : List String) :
    (names.map Text.lower).getLastD "" = Text.lower (names.getLastD "") := by
  rw [List.getLastD_eq_getLast?, List.getLast?_map, List.getLastD_eq_getLast?]
  cases names.getLast? <;> rfl

theorem named_lowers (h : scope.Lowers) : Lowers Expr.lower (named scope) (named scope) := by
  refine path_lowers.bind fun names => ?_
  have wildcard : (Text.lower (names.getLastD "") == wildcardName) =
      (names.getLastD "" == wildcardName) :=
    Token.lower_beq_wildcard _
  simp only [dropLast_lower, getLastD_lower, wildcard, List.isEmpty_map]
  refine (Lowers.look 0 (Token.isKind_lower _)).pass fun isCall => .ite ?_ ?_
  · exact (functionCall_lowers h _ _).map fun _ => rfl
  · refine (typedString_lowers _).bind fun o => ?_
    cases o with
    | none => exact .ret rfl
    | some text => 
      refine .ret ?_
      simp [Expr.lower, Literal.ofText_lower]

theorem branch_lowers (h : level.Lowers) : Lowers Branch.lower (branch level) (branch level) :=
  (h.expr 0).bind fun _ => (Lowers.keyword _).pass fun _ => (h.expr 0).bind fun _ => .ret rfl

theorem caseSubject_lowers (h : level.Lowers) :
    Lowers (Option.map Expr.lower) (caseSubject level) (caseSubject level) :=
  (Lowers.look 0 (Token.isCommand_lower · _)).choose (.ret rfl) ((h.expr 0).map fun _ => rfl)

theorem branches_lowers (h : level.Lowers) :
    Lowers (List.map Branch.lower) (branches level) (branches level) := by
  refine ((Lowers.eatKeyword _).after (branch_lowers h)).many.bind fun bs => ?_
  rw [List.isEmpty_map]
  exact .ite (.fail _) (.ret rfl)

theorem caseExpr_lowers (h : scope.Lowers) :
    Lowers Expr.lower (caseExpr scope) (caseExpr scope) := by
  refine Lowers.skip.pass fun _ => h.enter fun level lowers => ?_
  refine (caseSubject_lowers lowers).bind fun subject => (branches_lowers lowers).bind fun bs => ?_
  refine ((Lowers.eatKeyword _).after (lowers.expr 0)).bind fun otherwise => ?_
  refine (Lowers.keyword _).pass fun _ => .ret ?_
  simp [Expr.lower, Switch.lower]

theorem castExpr_lowers (h : scope.Lowers) :
    Lowers Expr.lower (castExpr scope) (castExpr scope) := by
  refine Lowers.skip.pass fun _ => Lowers.openParen.pass fun _ => h.enter fun level lowers => ?_
  refine (lowers.expr 0).bind fun input => (Lowers.keyword _).pass fun _ => ?_
  exact (typeRef_lowers lowers).bind fun type => Lowers.closeParen.pass fun _ => .ret rfl

theorem arrayExpr_lowers (h : scope.Lowers) :
    Lowers Expr.lower (arrayExpr scope) (arrayExpr scope) := by
  refine Lowers.skip.pass fun _ => (Lowers.eatKind _).choose (h.enter fun level lowers => ?_) ?_
  · refine (valuesBefore_lowers lowers _).bind fun es => Lowers.closeBracket.pass fun _ => .ret ?_
    simp [Expr.lower]
  · refine (Lowers.look 0 (Token.isKind_lower _)).pass fun _ => ?_
    refine (startsQuery_lowers 1).pass fun _ => ?_
    exact .ite ((parenthesizedQuery_lowers h).map fun _ => rfl) (.fail _)

theorem keywordOperand_lowers (h : scope.Lowers) (keyword : String) :
    Lowers Expr.lower (keywordOperand scope keyword) (keywordOperand scope keyword) := by
  refine .ite (Lowers.skip.pass fun _ => .ret rfl) (.ite (Lowers.skip.pass fun _ => .ret rfl) ?_)
  refine .ite (caseExpr_lowers h) (.ite (castExpr_lowers h) (.ite (arrayExpr_lowers h) ?_))
  exact .ite (Lowers.skip.pass fun _ => (parenthesizedQuery_lowers h).map fun _ => rfl) (.fail _)

theorem primary_lowers (h : scope.Lowers) (t : Token) :
    Lowers Expr.lower (primary scope t) (primary scope t.lower) := by
  unfold primary
  rw [Token.lower_kind]
  split
  case h_1 kind =>
    rw [Token.lower_text (kind ▸ rfl), Literal.ofText_lower]
    exact Lowers.skip.pass fun _ => .ret rfl
  case h_2 kind =>
    rw [Token.lower_text (kind ▸ rfl), Expr.ofSpecified_lower]
    exact Lowers.skip.pass fun _ => .ret rfl
  case h_3 kind =>
    rw [Token.lower_text (kind ▸ rfl)]
    exact Lowers.skip.pass fun _ => .ret rfl
  case h_4 => exact parenthesized_lowers h
  case h_5 => exact named_lowers h
  case h_6 kind =>
    rw [Token.text_of_kind rfl kind]
    exact keywordOperand_lowers h t.text
  case h_7 => exact .fail _

theorem unary?_free {t : Token} (free : t.kind.isFixed = false) : Power.unary? t = none := by
  have sign : (t.kind == .operator) = false := Token.not_isKind_of_free rfl free
  have word : (t.kind == .command) = false := Token.not_isKind_of_free rfl free
  simp [Power.unary?, Token.isCommand, sign, word]

theorem operand_lowers (h : scope.Lowers) : Lowers Expr.lower (operand scope) (operand scope) := by
  refine Lowers.peek.bind fun o => ?_
  cases o with
  | none => exact .fail _
  | some t =>
    dsimp only [Option.map_some]
    cases fixed : t.kind.isFixed with
    | false =>
      have free' : t.lower.kind.isFixed = false := by rwa [Token.lower_kind]
      rw [unary?_free fixed, unary?_free free']
      exact primary_lowers h t
    | true =>
      have first := primary_lowers h t
      rw [Token.lower_fixed fixed] at first ⊢
      split
      case h_1 power _ => exact Lowers.skip.pass fun _ => (h.here.expr power).map fun _ => rfl
      case h_2 => exact first

theorem expression_lowers (h : scope.Lowers) (floor : Nat) :
    Lowers Expr.lower (expression scope floor) (expression scope floor) :=
  (operand_lowers h).bind fun first => (suffix_lowers h floor).many.bind fun suffixes =>
    .ret (Suffix.foldl_lower suffixes first).symm

end SqlQuery.Grammar
