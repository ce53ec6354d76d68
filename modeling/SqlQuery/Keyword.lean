import SqlQuery.Text.Class

/-!
Keywords. Some are single reserved words, others are phrases of several words that are read as one;
the first word of a phrase is an ordinary name when the rest does not follow.
-/

namespace SqlQuery.Keyword

def reserved : List String :=
  ["all", "and", "array", "as", "asc", "between", "case", "cast", "desc", "distinct", "else", "end",
   "except", "exists", "false", "fetch", "for", "from", "having", "ilike", "in", "intersect", "is",
   "join", "lateral", "like", "limit", "materialized", "not", "null", "offset", "on", "or", "over",
   "recursive", "select", "then", "true", "union", "using", "values", "when", "where", "window",
   "with"]

def phrases : List String :=
  ["cross join", "distinct on", "except all", "full join", "full outer join", "group by",
   "inner join", "intersect all", "is not", "left join", "left outer join", "natural full join",
   "natural full outer join", "natural inner join", "natural join", "natural left join",
   "natural left outer join", "natural right join", "natural right outer join", "not between",
   "not ilike", "not in", "not like", "not materialized", "nulls first", "nulls last", "order by",
   "partition by", "right join", "right outer join", "union all"]

def isReserved (word : String) : Bool := reserved.contains word

def isComplete (candidate : String) : Bool := isReserved candidate || phrases.contains candidate

/-- Some phrase continues the candidate with another word. -/
def isExtendable (candidate : String) : Bool :=
  phrases.any fun phrase => (candidate.toList ++ [' ']).isPrefixOf phrase.toList

end SqlQuery.Keyword
