import RoutePolicy.Rule

/-!
# Condition clauses

The rules for the clauses of an `if` or `elseif` line.  A clause comes with the `and` or `or` that
closes it, which every rule reads last, into `combine_condition`.

The operands come in a few families: a comparison with a number, a set that the attribute is in, a
way to match communities, one of a few words, or no operand at all.
-/

namespace RoutePolicy.Catalog

/-! ## Families -/

/-- The connective that closes a clause. -/
def connective : Operand :=
  .single .optional "combine_condition" [.oneOf ["and", "or"]]

/-- A clause: keywords, then fields that are texts, each read by any of several forms. -/
def clause (leaf : String) (head : List (List String))
    (fields : List (Presence × String × List Form)) : Rule :=
  { parents := ["conditions"]
    leaf
    lineClass := .condition
    pattern := .phrase head
      ((fields.map fun f => Operand.single f.1 f.2.1 f.2.2) ++ [connective])
    shape := .map ((fields.map fun f => ⟨f.2.1, .text⟩) ++ [⟨"combine_condition", .text⟩]) }

/-- The words that compare with a number. -/
def comparators : Form :=
  .oneOf ["eq", "ge", "is", "le"]

/-- The forms of a set: a list in parentheses, or the name of a set. -/
def setForms : List Form :=
  [.group, .word]

/-- A comparison in which the comparator and the number may be missing. -/
def looseComparison (leaf : String) (keywords : List String) : Rule :=
  clause leaf [keywords]
    [(.optional, "match", [comparators]), (.optional, "input_number", [.number])]

/-- A comparison with a number. -/
def comparison (leaf keyword : String) : Rule :=
  clause leaf [[keyword]]
    [(.required, "match", [comparators]), (.required, "input_number", [.number])]

/-- Membership in a set, which may be missing. -/
def membership (leaf : String) (keywords : List String) : Rule :=
  clause leaf (keywords.map fun k => [k]) [(.reluctant, "input_name", setForms)]

/-- A match of communities, by a way that may be missing, with a set that may be missing. -/
def communityMatch (leaf : String) (keywords : List String) (setField : String) : Rule :=
  clause leaf (keywords.map fun k => [k])
    [(.optional, "match", [.oneOf ["is-empty", "matches-any", "matches-every", "matches-within"]]),
      (.reluctant, setField, setForms)]

/-- One of a few words, which may be missing. -/
def choice (leaf keyword : String) (words : List String) : Rule :=
  clause leaf [[keyword], ["is"]] [(.optional, "input_choice", [.oneOf words])]

/-- A clause that is its keyword alone. -/
def predicate (leaf keyword : String) : Rule :=
  { parents := ["conditions"]
    leaf
    lineClass := .condition
    pattern := .phrase [[keyword]] [connective]
    shape := .map [⟨"set", .on⟩, ⟨"combine_condition", .text⟩] }

/-! ## The rules -/

/-- The rules for condition clauses. -/
def conditions : List Rule :=
  [ looseComparison "aigp_metric" ["aigp-metric", "aigrp-metric"],
    membership "as_path" ["as-path", "in"],
    communityMatch "community" ["community"] "input_name",
    looseComparison "community_length" ["community-length"],
    clause "destination" [["destination"]]
      [(.optional, "match", [.oneOf ["in", "is-backup-path", "is-best-external", "is-best-path",
          "is-multi-path", "longer-than", "or-longer"]]),
        (.reluctant, "destination_name", setForms)],
    membership "destination_prefix" ["destination-prefix", "in"],
    membership "esi" ["esi", "in"],
    membership "etag" ["etag", "in"],
    membership "evpn_gateway" ["evpn-gateway", "in"],
    membership "evpn_originator" ["evpn-originator", "in"],
    clause "evpn_route_type" [["evpn-route-type"], ["is"]]
      [(.optional, "input_number", [.number])],
    communityMatch "extcommunity_color" ["extcommunity", "color"] "community_name",
    communityMatch "extcommunity_rt" ["extcommunity", "rt"] "community_name",
    communityMatch "extcommunity_seg_nh" ["extcommunity", "seg-nh"] "community_name",
    communityMatch "extcommunity_soo" ["extcommunity", "soo"] "community_name",
    predicate "i_pmsi_present" "i-pmsi-present",
    communityMatch "large_community" ["large-community"] "community_name",
    looseComparison "local_preference" ["local-preference"],
    membership "mac" ["mac", "in"],
    comparison "med" "med",
    clause "next_hop" [["next-hop"], ["in"]] [(.required, "input_name", setForms)],
    membership "orf_prefix" ["orf", "prefix", "in"],
    choice "origin" "origin" ["ebgp", "ibgp", "incomplete"],
    choice "path_type" "path-type" ["ebgp", "ibgp"],
    choice "protocol" "protocol"
      ["bgp", "connected", "eigrp", "isis", "ospf", "ospfv3", "rip", "static"],
    membership "rd" ["rd", "in"],
    membership "rib_has_route" ["rib-has-route", "in"],
    comparison "rib_metric" "rib-metric",
    predicate "route_aggregated" "route-aggregated",
    predicate "route_has_label" "route-has-label",
    predicate "route_has_vrf_ri" "route-has-vrf-ri",
    choice "route_type" "route-type"
      ["interarea", "internal", "level-1-2", "level-1", "level-2", "local", "ospf-external-type-1",
        "ospf-external-type-2", "ospf-inter-area", "ospf-intra-area", "ospf-nssa-type-1",
        "ospf-nssa-type-2", "type-1", "type-2"],
    membership "source" ["source", "in"],
    membership "source_prefix" ["source-prefix", "in"],
    comparison "tag" "tag",
    choice "validation_state" "validation-state" ["invalid", "not-found", "valid"],
    clause "vpn_distinguisher" [["vpn-distinguisher"], ["is"]]
      [(.required, "input_number", [.number])] ]

example : conditions.length = 37 := by decide

end RoutePolicy.Catalog
