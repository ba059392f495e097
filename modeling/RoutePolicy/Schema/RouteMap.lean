import RoutePolicy.Schema.Basic

/-!
# The schema of route maps

The declared fields of a policy document, field by field.  The spelling of the keys is that of the
published data model (`effective_bandwith`, `icrement`, `rincomplete`).
-/

namespace RoutePolicy.Schema

/-! ## Conditions -/

/-- The fields of a condition; each may name the connective that follows it. -/
def clause (fields : List (String × Schema)) : Schema :=
  .dict (fields ++ [("combine_condition", .choice ["and", "or"])])

/-- A comparison with a number. -/
def comparison : Schema :=
  clause [("match", .choice ["eq", "ge", "is", "le"]), ("input_number", .int)]

/-- A condition with a number. -/
def numbered : Schema :=
  clause [("input_number", .int)]

/-- Membership in a set. -/
def membership : Schema :=
  clause [("input_name", .str)]

/-- The ways to match communities. -/
def communityWays : Schema :=
  .choice ["is-empty", "matches-any", "matches-every", "matches-within"]

/-- A match of communities. -/
def communityMatch : Schema :=
  clause [("match", communityWays), ("community_name", .str)]

/-- A condition without operands. -/
def predicate : Schema :=
  clause [("set", .bool)]

/-- A condition with one of a few words. -/
def worded (words : List String) : Schema :=
  clause [("input_choice", .choice words)]

/-- One condition of a block. -/
def condition : Schema :=
  .dict
    [ ("aigp_metric", comparison),
      ("as_path", membership),
      ("community", clause [("match", communityWays), ("input_name", .str)]),
      ("community_length", comparison),
      ("destination", clause
        [("match", .choice ["in", "is-backup-path", "is-best-external", "is-best-path",
            "is-multi-path", "longer-than", "or-longer"]),
          ("destination_name", .str)]),
      ("destination_prefix", membership),
      ("esi", membership),
      ("etag", membership),
      ("evpn_gateway", membership),
      ("evpn_originator", membership),
      ("evpn_route_type", numbered),
      ("extcommunity_color", communityMatch),
      ("extcommunity_rt", communityMatch),
      ("extcommunity_seg_nh", communityMatch),
      ("extcommunity_soo", communityMatch),
      ("i_pmsi_present", predicate),
      ("large_community", communityMatch),
      ("local_preference", comparison),
      ("mac", membership),
      ("med", comparison),
      ("next_hop", membership),
      ("orf_prefix", membership),
      ("origin", worded ["ebgp", "ibgp", "incomplete"]),
      ("path_type", worded ["ebgp", "ibgp"]),
      ("protocol", worded
        ["bgp", "connected", "eigrp", "isis", "ospf", "ospfv3", "rip", "static"]),
      ("rd", membership),
      ("rib_has_route", membership),
      ("rib_metric", comparison),
      ("route_aggregated", predicate),
      ("route_has_label", predicate),
      ("route_has_vrf_ri", predicate),
      ("route_type", worded
        ["interarea", "internal", "level-1", "level-1-2", "level-2", "local",
          "ospf-external-type-1", "ospf-external-type-2", "ospf-inter-area", "ospf-intra-area",
          "ospf-nssa-type-1", "ospf-nssa-type-2", "type-1", "type-2"]),
      ("source", membership),
      ("source_prefix", membership),
      ("tag", clause [("match", .choice ["eq", "ge", "in", "is", "le"]), ("input_number", .int)]),
      ("validation_state", worded ["invalid", "not-found", "valid"]),
      ("vpn_distinguisher", numbered) ]

/-! ## Statements -/

/-- A mapping of truth values. -/
def flags (keys : List String) : Schema :=
  .dict (keys.map fun key => (key, .bool))

/-- A mapping of integers. -/
def numbers (keys : List String) : Schema :=
  .dict (keys.map fun key => (key, .int))

/-- The weights of an EIGRP metric. -/
def eigrpMetric : Schema :=
  numbers ["bandwidth", "delay", "reliability", "effective_bandwith", "max_transmission"]

/-- The options of a multicast core tree in one direction. -/
def tree : Schema :=
  flags ["ingress_replication", "mldp", "p2mp_te", "sr_p2mp"]

/-- The attributes that a `set` action can give a value. -/
def settings : Schema :=
  .dict
    [ ("administrative_distance", .int),
      ("aigp_metric", .dict
        [("icrement", .bool), ("decrement", .bool), ("metric_number", .int), ("igp_cost", .bool)]),
      ("attribute_set", .str),
      ("c_multicast_routing", flags ["bgp", "pim"]),
      ("community", .dict [("community_name", .str), ("additive", .bool)]),
      ("core_tree", flags
        ["ingress_replication", "ingress_replication_default", "ingress_replication_partitioned",
          "mldp", "mldp_default", "mldp_inband", "mldp_partitioned_mp2mp", "mldp_partitioned_p2mp",
          "p2mp_te", "p2mp_te_default", "p2mp_te_partitioned", "pim_default", "sr_p2mp"]),
      ("dampening", numbers ["halflife", "max_suppress", "reuse", "suppress"]),
      ("downstream_core_tree", tree),
      ("eigrp_metric", eigrpMetric),
      ("fallback_vrf_lookup", .bool),
      ("flow_tag", .int),
      ("forward_class", .int),
      ("ip_precedence", .int),
      ("isis_metric", .int),
      ("label", .int),
      ("label_index", .int),
      ("label_mode", flags ["per_ce", "per_prefix", "per_vrf"]),
      ("large_community", .str),
      ("level", flags ["level_1", "level_1_2", "level_2"]),
      ("load_balance", .bool),
      ("lsm_root", .str),
      ("metric_type", flags
        ["external", "internal", "rib_metric_as_external", "rib_metric_as_internal", "type_1",
          "type_2"]),
      ("mpls", .str),
      ("next_hop", .dict [("address", .str)]),
      ("origin", flags ["egp", "igp", "rincomplete"]),
      ("ospf_metric", .int),
      ("path_color", .bool),
      ("qos_group", .int),
      ("rib_metric", .int),
      ("rip_metric", .int),
      ("rip_tag", .int),
      ("rt_set", .int),
      ("s_pmsi", .bool),
      ("spf_priority", flags ["critical", "high", "medium"]),
      ("static_p2mp_te", .str),
      ("tag", .int),
      ("traffic_index", .dict [("index_number", .int), ("ignore", .bool)]),
      ("upstream_core_tree", tree),
      ("vpn_distinguisher", .int),
      ("weight", .int) ]

/-- The fields for the statements of a block. -/
def statementFields : List (String × Schema) :=
  [ ("add", .dict [("eigrp_metric", eigrpMetric), ("rip_metric", .int)]),
    ("apply", .list (.dict [("route_policy", .str), ("route_policy_input", .str)])),
    ("drop", .bool),
    ("pass", .bool),
    ("prepend", .dict
      [("number_of_times", .int), ("as_path", .int), ("most_recent", .bool), ("own_as", .bool)]),
    ("suppress_route", .bool),
    ("unsuppress_route", .bool),
    ("remove", flags ["set", "entire_aspath"]),
    ("set", settings) ]

/-! ## Policies -/

/-- The block of a branch. -/
def block : Schema :=
  .dict (("conditions", .list condition) :: statementFields)

/-- The fields of a scope. -/
def scopeFields : List (String × Schema) :=
  [ ("global", .dict statementFields),
    ("if", block),
    ("elif", .list block),
    ("else", .scope) ]

/-- A policy. -/
def routeMap : Schema :=
  .dict (("name", .str) :: scopeFields)

/-- All policies of a configuration. -/
def routeMaps : Schema :=
  .list routeMap

end RoutePolicy.Schema
